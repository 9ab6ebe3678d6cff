import Microtun.Config
import Microtun.Rate
import Mathlib.Data.Finset.Card

/-! The rate limiter gives every source a bucket of its own. Its table drops buckets and builds them
anew, and its answers are those of buckets that are never forgotten. -/

namespace Microtun

open Function (update update_self update_of_ne)

/-! ### One bucket -/

namespace TokenBucket

variable {b : TokenBucket} {perSec burst now later : Nat}

/-- The bucket has this rate and this burst. -/
structure Rated (b : TokenBucket) (perSec burst : Nat) : Prop where
  perSec : b.perSec = perSec
  capacity : b.capacityMt = min (burst * 1000) maxU32

theorem rated_new (perSec burst now : Nat) : (new perSec burst now).Rated perSec burst := ⟨rfl, rfl⟩

theorem Rated.tryTake (h : b.Rated perSec burst) (now : Nat) :
    (b.tryTake now).2.Rated perSec burst := by
  unfold TokenBucket.tryTake
  dsimp only
  split
  · exact ⟨h.perSec, h.capacity⟩
  · exact ⟨h.perSec, h.capacity⟩

theorem Rated.tokensAt (h : b.Rated perSec burst) (now : Nat) : b.tokensAt now =
      min (b.millitokens + (now - b.last) * perSec) (min (burst * 1000) maxU32) := by
  have hmax : maxMillis = 2 ^ 64 - 1 := rfl
  have hmax' : maxU32 = 2 ^ 32 - 1 := rfl
  simp only [TokenBucket.tokensAt, saturatingSince, h.perSec, h.capacity]
  omega

theorem Rated.tokensAt_le (h : b.Rated perSec burst) (now : Nat) :
    b.tokensAt now ≤ min (burst * 1000) maxU32 := by
  rw [h.tokensAt]
  omega

theorem Rated.tokensAt_later (h : b.Rated perSec burst) (now later : Nat) :
    b.tokensAt later ≤ b.tokensAt now + perSec * (later - now) := by
  have hle : later - b.last ≤ (now - b.last) + (later - now) := by omega
  have hmul := Nat.mul_le_mul_right perSec hle
  rw [Nat.add_mul, Nat.mul_comm (later - now)] at hmul
  rw [h.tokensAt, h.tokensAt]
  omega

theorem isFull_iff (h : b.Rated perSec burst) :
    b.isFull now = true ↔ b.tokensAt now = min (burst * 1000) maxU32 := by
  have hle := h.tokensAt_le now
  rw [isFull, decide_eq_true_eq, h.capacity]
  omega

theorem isFull_later (h : b.Rated perSec burst) (hle : now ≤ later) (hfull : b.isFull now = true) :
    b.isFull later = true := by
  have hmul := Nat.mul_le_mul_right perSec (Nat.sub_le_sub_right hle b.last)
  rw [isFull_iff h, h.tokensAt] at hfull ⊢
  omega

theorem tryTake_of_full (h : b.Rated perSec burst) (hfull : b.isFull now = true) :
    b.tryTake now = (new perSec burst now).tryTake now := by
  have heq : b.tokensAt now = (new perSec burst now).tokensAt now := by
    rw [(isFull_iff h).mp hfull, (rated_new perSec burst now).tokensAt]
    simp only [new]
    omega
  obtain ⟨millitokens, capacityMt, rate, last⟩ := b
  obtain ⟨rfl, rfl⟩ := h
  unfold tryTake
  simp only [heq]
  rfl

theorem tryTake_spend (h : b.Rated perSec burst) (now : Nat) :
    (b.tryTake now).2.tokensAt now + (if (b.tryTake now).1 then costMt else 0) =
      b.tokensAt now := by
  have hle := h.tokensAt_le now
  rw [(h.tryTake now).tokensAt]
  unfold tryTake
  dsimp only
  split
  · simp only [Nat.sub_self, Nat.zero_mul, if_true]
    omega
  · simp only [Nat.sub_self, Nat.zero_mul, Bool.false_eq_true, if_false]
    omega

end TokenBucket

theorem RateKey.fromIp_mapped (address : BitVec 32) :
    fromIp (.v6 (Ip.mapped address)) = fromIp (.v4 address) := by
  simp only [fromIp, Ip.unmapIp_mapped]
  rfl

/-! ### The table of either backend -/

namespace RateLimiter

/-- The bucket that a source has in the table. -/
def entry (l : RateLimiter) (key : RateKey) : Option TokenBucket :=
  (l.buckets.find? (·.1 = key)).map (·.2)

/-- `admit`: the table of the inline backend has no room beyond its storage. -/
def admitsOn (backend : Backend) (l : RateLimiter) (key : RateKey) (now : Nat) :
    Bool × RateLimiter :=
  let (allowed, tokens) := (TokenBucket.new l.perSec l.burst now).tryTake now
  if backend = .inline ∧ backend.maxRateLimitEntries ≤ l.buckets.length then (false, l)
  else (allowed, { l with buckets := l.buckets ++ [(key, tokens)] })

/-- Charge one handshake message to a source, in the table of a backend. -/
def allowOn (backend : Backend) (l : RateLimiter) (ip : IpAddr) (now : Nat) : Bool × RateLimiter :=
  let key := RateKey.fromIp ip
  match l.buckets.find? (·.1 = key) with
  | some (_, tokens) =>
    let (allowed, tokens) := tokens.tryTake now
    (allowed, { l with
      buckets := l.buckets.map fun b => if b.1 = key then (key, tokens) else b })
  | none =>
    if l.maxEntries ≤ l.buckets.length then
      let l := l.collect now
      if l.maxEntries ≤ l.buckets.length then (false, l) else l.admitsOn backend key now
    else l.admitsOn backend key now

/-- The storage has room for the entries that are configured. -/
def Fits (backend : Backend) (maxEntries : Nat) : Prop :=
  backend = .inline → maxEntries ≤ backend.maxRateLimitEntries

theorem fits_of_validate {backend : Backend} {c : CoreConfig}
    (h : c.validateAgainstLimits backend = .ok ()) : Fits backend c.rateLimitEntries := by
  intro _
  unfold CoreConfig.validateAgainstLimits at h
  split at h
  · cases h
  · omega

theorem admitsOn_eq {backend : Backend} {l : RateLimiter} (hfits : Fits backend l.maxEntries)
    (hroom : l.buckets.length < l.maxEntries) (key : RateKey) (now : Nat) :
    l.admitsOn backend key now = l.admits key now := by
  unfold admitsOn admits
  dsimp only
  rw [if_neg]
  intro h
  have := hfits h.1
  omega

/-- Where the entries fit, the backends do the same. -/
theorem allowOn_eq {backend : Backend} {l : RateLimiter} (hfits : Fits backend l.maxEntries)
    (ip : IpAddr) (now : Nat) : l.allowOn backend ip now = l.allow ip now := by
  unfold allowOn allow
  dsimp only
  cases l.buckets.find? (·.1 = RateKey.fromIp ip) with
  | some found => rfl
  | none =>
    dsimp only
    split
    · split
      · rfl
      · rename_i hroom
        exact admitsOn_eq (l := l.collect now) hfits (Nat.lt_of_not_le hroom) _ now
    · rename_i hroom
      exact admitsOn_eq hfits (Nat.lt_of_not_le hroom) _ now

theorem admitsOn_settings (backend : Backend) (l : RateLimiter) (key : RateKey) (now : Nat) :
    (l.admitsOn backend key now).2.perSec = l.perSec ∧
      (l.admitsOn backend key now).2.burst = l.burst ∧
      (l.admitsOn backend key now).2.maxEntries = l.maxEntries := by
  unfold admitsOn
  dsimp only
  split
  · exact ⟨rfl, rfl, rfl⟩
  · exact ⟨rfl, rfl, rfl⟩

theorem allowOn_settings (backend : Backend) (l : RateLimiter) (ip : IpAddr) (now : Nat) :
    (l.allowOn backend ip now).2.perSec = l.perSec ∧ (l.allowOn backend ip now).2.burst = l.burst ∧
      (l.allowOn backend ip now).2.maxEntries = l.maxEntries := by
  unfold allowOn
  dsimp only
  split
  · exact ⟨rfl, rfl, rfl⟩
  · split
    · split
      · exact ⟨rfl, rfl, rfl⟩
      · exact admitsOn_settings backend (l.collect now) _ now
    · exact admitsOn_settings backend l _ now

/-- The answers of a limiter to the calls `allow(ip, now)`, the first one first. -/
def answers (backend : Backend) : RateLimiter → List (IpAddr × Nat) → List Bool
  | _, [] => []
  | l, (ip, now) :: rest =>
    (l.allowOn backend ip now).1 :: answers backend (l.allowOn backend ip now).2 rest

end RateLimiter

/-! ### Buckets that are never forgotten -/

/-- The bucket of every source that was charged so far. -/
abbrev OwnBuckets := RateKey → Option TokenBucket

namespace OwnBuckets

/-- The bucket of a source, a new one if the source was never charged. -/
def bucket (own : OwnBuckets) (perSec burst : Nat) (key : RateKey) (now : Nat) : TokenBucket :=
  (own key).getD (.new perSec burst now)

/-- Charge the bucket of a source. -/
def take (own : OwnBuckets) (perSec burst : Nat) (key : RateKey) (now : Nat) : Bool × OwnBuckets :=
  let (allowed, tokens) := (own.bucket perSec burst key now).tryTake now
  (allowed, update own key (some tokens))

/-- At least `n` other sources hold buckets that have not refilled to capacity. -/
def Crowded (own : OwnBuckets) (key : RateKey) (now n : Nat) : Prop :=
  ∃ others : Finset RateKey, n ≤ others.card ∧ key ∉ others ∧
    ∀ k ∈ others, ∃ b, own k = some b ∧ b.isFull now = false

end OwnBuckets

/-- The answers are those of buckets that are never forgotten.  A source that has no bucket in the
table of the limiter is refused, and not charged, when the table is full of others. -/
inductive Independent (backend : Backend) :
    RateLimiter → OwnBuckets → List (IpAddr × Nat) → List Bool → Prop
  | nil (l : RateLimiter) (own : OwnBuckets) : Independent backend l own [] []
  | charged {l : RateLimiter} {own : OwnBuckets} {ip : IpAddr} {now : Nat}
    {calls : List (IpAddr × Nat)} {answers : List Bool}
    (hroom : ¬ (l.entry (.fromIp ip) = none ∧ own.Crowded (.fromIp ip) now l.maxEntries))
    (hrest : Independent backend (l.allowOn backend ip now).2
      (own.take l.perSec l.burst (.fromIp ip) now).2 calls answers) :
    Independent backend l own ((ip, now) :: calls)
      ((own.take l.perSec l.burst (.fromIp ip) now).1 :: answers)
  | refused {l : RateLimiter} {own : OwnBuckets} {ip : IpAddr} {now : Nat}
    {calls : List (IpAddr × Nat)} {answers : List Bool}
    (hentry : l.entry (.fromIp ip) = none) (hfull : own.Crowded (.fromIp ip) now l.maxEntries)
    (hrest : Independent backend (l.allowOn backend ip now).2 own calls answers) :
    Independent backend l own ((ip, now) :: calls) (false :: answers)

/-- How often a source was allowed in an interval. -/
def allowedIn (key : RateKey) (t₁ t₂ : Nat) (calls : List (IpAddr × Nat)) (answers : List Bool) :
    Nat :=
  (calls.zip answers).countP fun ((ip, now), allowed) =>
    allowed ∧ RateKey.fromIp ip = key ∧ t₁ ≤ now ∧ now ≤ t₂

/-! ### The table and the buckets agree -/

namespace RateLimiter

variable {l : RateLimiter} {own : OwnBuckets} {key : RateKey} {b : TokenBucket} {now after : Nat}

theorem entry_eq_none : l.entry key = none ↔ ∀ b, (key, b) ∉ l.buckets := by
  rw [entry, Option.map_eq_none_iff, List.find?_eq_none]
  constructor
  · intro h b hb
    exact h (key, b) hb (by simp)
  · intro h e he hkey
    obtain rfl : e.1 = key := of_decide_eq_true hkey
    exact h e.2 he

theorem mem_of_entry (h : l.entry key = some b) : (key, b) ∈ l.buckets := by
  rw [entry, Option.map_eq_some_iff] at h
  obtain ⟨e, he, rfl⟩ := h
  obtain rfl : e.1 = key := by simpa using List.find?_some he
  exact List.mem_of_find?_eq_some he

/-- Every bucket in the table is the source's own, and a source without one has a full bucket. -/
structure Follows (l : RateLimiter) (own : OwnBuckets) (now : Nat) : Prop where
  nodup : (l.buckets.map (·.1)).Nodup
  rated : ∀ key b, own key = some b → b.Rated l.perSec l.burst
  kept : ∀ key b, (key, b) ∈ l.buckets → own key = some b
  full : ∀ key b, own key = some b → l.entry key = none → b.isFull now = true

theorem follows_new (perSec burst maxEntries now : Nat) :
    (new perSec burst maxEntries).Follows (fun _ => none) now :=
  ⟨List.nodup_nil, by simp, by simp [new], by simp⟩

theorem Follows.later (h : l.Follows own now) (hle : now ≤ after) : l.Follows own after :=
  ⟨h.nodup, h.rated, h.kept, fun key b hb hentry =>
    TokenBucket.isFull_later (h.rated key b hb) hle (h.full key b hb hentry)⟩

theorem Follows.collect (h : l.Follows own now) : (l.collect now).Follows own now := by
  refine ⟨h.nodup.sublist (List.filter_sublist.map _), h.rated, ?_, ?_⟩
  · intro key b hb
    exact h.kept key b (List.mem_of_mem_filter hb)
  · intro key b hb hentry
    cases hbefore : l.entry key with
    | none => exact h.full key b hb hbefore
    | some b' =>
      have hmem := mem_of_entry hbefore
      obtain rfl : b' = b := Option.some.inj ((h.kept key b' hmem).symm.trans hb)
      by_contra hfull
      apply entry_eq_none.mp hentry b'
      exact List.mem_filter.mpr ⟨hmem, by simpa using hfull⟩

/-- What is left after a collection are the sources whose buckets have not refilled. -/
theorem Follows.crowded_iff (h : l.Follows own now) (hentry : l.entry key = none) (n : Nat) :
    own.Crowded key now n ↔ n ≤ (l.collect now).buckets.length := by
  constructor
  · intro hcrowded
    obtain ⟨others, hn, -, hothers⟩ := hcrowded
    have hsub : others ⊆ ((l.collect now).buckets.map (·.1)).toFinset := by
      intro k hk
      obtain ⟨b, hb, hfull⟩ := hothers k hk
      cases hk : l.entry k with
      | none =>
        rw [h.full k b hb hk] at hfull
        cases hfull
      | some b' =>
        have hmem := mem_of_entry hk
        obtain rfl : b' = b := Option.some.inj ((h.kept k b' hmem).symm.trans hb)
        rw [List.mem_toFinset, List.mem_map]
        exact ⟨(k, b'), List.mem_filter.mpr ⟨hmem, by simp [hfull]⟩, rfl⟩
    calc n ≤ others.card := hn
      _ ≤ _ := Finset.card_le_card hsub
      _ ≤ ((l.collect now).buckets.map (·.1)).length := List.toFinset_card_le _
      _ = (l.collect now).buckets.length := List.length_map _
  · intro hn
    refine ⟨((l.collect now).buckets.map (·.1)).toFinset, ?_, ?_, ?_⟩
    · rw [List.toFinset_card_of_nodup h.collect.nodup, List.length_map]
      exact hn
    · intro hmem
      rw [List.mem_toFinset, List.mem_map] at hmem
      obtain ⟨⟨k, b⟩, hb, rfl⟩ := hmem
      exact entry_eq_none.mp hentry b (List.mem_of_mem_filter hb)
    · intro k hk
      rw [List.mem_toFinset, List.mem_map] at hk
      obtain ⟨⟨k, b⟩, hb, rfl⟩ := hk
      refine ⟨b, h.kept k b (List.mem_of_mem_filter hb), ?_⟩
      have := (List.mem_filter.mp hb).2
      simpa using this

/-- The bucket that a source is charged from.  One that has refilled is as good as a new one. -/
theorem Follows.bucket_tryTake (h : l.Follows own now) (hentry : l.entry key = none) :
    (own.bucket l.perSec l.burst key now).tryTake now =
      (TokenBucket.new l.perSec l.burst now).tryTake now := by
  unfold OwnBuckets.bucket
  cases hown : own key with
  | none => rfl
  | some b => exact TokenBucket.tryTake_of_full (h.rated key b hown) (h.full key b hown hentry)

theorem Follows.rated_take (h : l.Follows own now) {k : RateKey}
    (hb : (own.take l.perSec l.burst key now).2 k = some b) : b.Rated l.perSec l.burst := by
  unfold OwnBuckets.take at hb
  dsimp only at hb
  by_cases hk : k = key
  · subst hk
    rw [update_self] at hb
    cases hb
    unfold OwnBuckets.bucket
    cases hown : own k with
    | none => exact (TokenBucket.rated_new _ _ now).tryTake now
    | some b => exact (h.rated k b hown).tryTake now
  · rw [update_of_ne hk] at hb
    exact h.rated k b hb

/-- A source that is in the table is charged there. -/
theorem Follows.hit (h : l.Follows own now) {ip : IpAddr} (hentry : l.entry (.fromIp ip) = some b) :
    (l.allow ip now).1 = (own.take l.perSec l.burst (.fromIp ip) now).1 ∧
      (l.allow ip now).2.Follows (own.take l.perSec l.burst (.fromIp ip) now).2 now := by
  have hmem := mem_of_entry hentry
  have hown := h.kept _ b hmem
  rw [entry, Option.map_eq_some_iff] at hentry
  obtain ⟨⟨k, b'⟩, hfind, rfl⟩ := hentry
  have htake : own.take l.perSec l.burst (.fromIp ip) now =
      ((b'.tryTake now).1, update own (.fromIp ip) (some (b'.tryTake now).2)) := by
    simp only [OwnBuckets.take, OwnBuckets.bucket, hown, Option.getD_some]
  have hrated : ∀ k b, (own.take l.perSec l.burst (.fromIp ip) now).2 k = some b →
      b.Rated l.perSec l.burst := fun _ _ => h.rated_take
  rw [htake] at hrated ⊢
  unfold allow
  simp only [hfind, true_and]
  generalize RateKey.fromIp ip = key at *
  refine ⟨?_, hrated, ?_, ?_⟩
  · have hkeys : (l.buckets.map fun e => if e.1 = key then (key, (b'.tryTake now).2) else e).map
      (·.1)
        = l.buckets.map (·.1) := by
      rw [List.map_map]
      apply List.map_congr_left
      intro e _
      by_cases he : e.1 = key <;> simp [he]
    dsimp only
    rw [hkeys]
    exact h.nodup
  · intro k b hb
    obtain ⟨e, he, heq⟩ := List.mem_map.mp hb
    by_cases hkey : e.1 = key
    · rw [if_pos hkey] at heq
      cases heq
      exact update_self ..
    · rw [if_neg hkey] at heq
      subst heq
      rw [update_of_ne hkey]
      exact h.kept k b he
  · intro k b hb hnone
    by_cases hk : k = key
    · subst hk
      refine absurd ?_ (entry_eq_none.mp hnone (b'.tryTake now).2)
      exact List.mem_map.mpr ⟨_, hmem, if_pos rfl⟩
    · rw [update_of_ne hk] at hb
      apply h.full k b hb
      apply entry_eq_none.mpr
      intro b' hb'
      exact entry_eq_none.mp hnone b' (List.mem_map.mpr ⟨(k, b'), hb', if_neg hk⟩)

/-- A source that is not in the table is given a bucket there, and charged. -/
theorem Follows.admits (h : l.Follows own now) (hentry : l.entry key = none) :
    (l.admits key now).1 = (own.take l.perSec l.burst key now).1 ∧
      (l.admits key now).2.Follows (own.take l.perSec l.burst key now).2 now := by
  have htake : own.take l.perSec l.burst key now =
      (((TokenBucket.new l.perSec l.burst now).tryTake now).1,
        update own key (some ((TokenBucket.new l.perSec l.burst now).tryTake now).2)) := by
    simp only [OwnBuckets.take, h.bucket_tryTake hentry]
  have hrated : ∀ k b, (own.take l.perSec l.burst key now).2 k = some b →
      b.Rated l.perSec l.burst := fun _ _ => h.rated_take
  have hadmits : l.admits key now = (((TokenBucket.new l.perSec l.burst now).tryTake now).1,
      { l with buckets := l.buckets ++
        [(key, ((TokenBucket.new l.perSec l.burst now).tryTake now).2)] }) := rfl
  rw [htake] at hrated ⊢
  rw [hadmits]
  dsimp only at hrated ⊢
  refine ⟨rfl, ?_, hrated, ?_, ?_⟩
  · dsimp only
    rw [List.map_append, List.nodup_append]
    refine ⟨h.nodup, List.nodup_singleton _, ?_⟩
    intro k hk k' hk' heq
    obtain rfl : k' = key := by simpa using hk'
    subst heq
    obtain ⟨⟨k, b⟩, hb, rfl⟩ := List.mem_map.mp hk
    exact entry_eq_none.mp hentry b hb
  · intro k b hmem
    rcases List.mem_append.mp hmem with hb | hb
    · have hk : k ≠ key := by
        rintro rfl
        exact entry_eq_none.mp hentry b hb
      rw [update_of_ne hk]
      exact h.kept k b hb
    · cases List.mem_singleton.mp hb
      exact update_self ..
  · intro k b hb hnone
    have hnone := entry_eq_none.mp hnone
    by_cases hk : k = key
    · subst hk
      exact absurd (List.mem_append_right _ List.mem_cons_self)
        (hnone ((TokenBucket.new l.perSec l.burst now).tryTake now).2)
    · rw [update_of_ne hk] at hb
      apply h.full k b hb
      apply entry_eq_none.mpr
      intro b' hb'
      exact hnone b' (List.mem_append_left _ hb')

theorem allow_miss {ip : IpAddr} (hentry : l.entry (.fromIp ip) = none) :
    l.allow ip now =
      if l.maxEntries ≤ l.buckets.length then
        if l.maxEntries ≤ (l.collect now).buckets.length then (false, l.collect now)
        else (l.collect now).admits (.fromIp ip) now
      else l.admits (.fromIp ip) now := by
  rw [entry, Option.map_eq_none_iff] at hentry
  unfold allow
  simp only [hentry]
  rfl

/-- A source that is not in the table is refused if the table is full of others. -/
theorem Follows.refused (h : l.Follows own now) {ip : IpAddr}
    (hentry : l.entry (.fromIp ip) = none) (hfull : own.Crowded (.fromIp ip) now l.maxEntries) :
    (l.allow ip now).1 = false ∧ (l.allow ip now).2.Follows own now := by
  have hroom := (h.crowded_iff hentry _).mp hfull
  have hle : (l.collect now).buckets.length ≤ l.buckets.length := List.length_filter_le ..
  rw [allow_miss hentry, if_pos (hroom.trans hle), if_pos hroom]
  exact ⟨rfl, h.collect⟩

theorem Follows.charged (h : l.Follows own now) {ip : IpAddr}
    (hroom : ¬ (l.entry (.fromIp ip) = none ∧ own.Crowded (.fromIp ip) now l.maxEntries)) :
    (l.allow ip now).1 = (own.take l.perSec l.burst (.fromIp ip) now).1 ∧
      (l.allow ip now).2.Follows (own.take l.perSec l.burst (.fromIp ip) now).2 now := by
  cases hentry : l.entry (.fromIp ip) with
  | some b => exact h.hit hentry
  | none =>
    have hlt : ¬ l.maxEntries ≤ (l.collect now).buckets.length := fun hle =>
      hroom ⟨hentry, (h.crowded_iff hentry _).mpr hle⟩
    have hcollected : (l.collect now).entry (.fromIp ip) = none := entry_eq_none.mpr fun b hb =>
      entry_eq_none.mp hentry b (List.mem_of_mem_filter hb)
    rw [allow_miss hentry, if_neg hlt]
    split
    · exact h.collect.admits hcollected
    · exact h.admits hentry

/-- The answers of a limiter are those of buckets that are never forgotten. -/
theorem Follows.independent {backend : Backend} (hfits : Fits backend l.maxEntries)
    {calls : List (IpAddr × Nat)} (htimes : calls.Pairwise fun a b => a.2 ≤ b.2)
    (h : ∀ call ∈ calls.head?, l.Follows own call.2) :
    Independent backend l own calls (answers backend l calls) := by
  induction calls generalizing l own with
  | nil => exact .nil l own
  | cons call rest ih =>
    obtain ⟨ip, now⟩ := call
    obtain ⟨hfirst, htimes⟩ := List.pairwise_cons.mp htimes
    have h := h (ip, now) rfl
    have heq := allowOn_eq hfits ip now
    have hlater : ∀ own', (l.allow ip now).2.Follows own' now →
        Independent backend (l.allowOn backend ip now).2 own' rest
          (answers backend (l.allowOn backend ip now).2 rest) := by
      intro own' hfollows
      rw [heq]
      apply ih _ htimes
      · intro call hcall
        exact hfollows.later (hfirst call (List.mem_of_mem_head? hcall))
      · rw [← heq, (allowOn_settings backend l ip now).2.2]
        exact hfits
    unfold answers
    by_cases hroom : l.entry (.fromIp ip) = none ∧ own.Crowded (.fromIp ip) now l.maxEntries
    · obtain ⟨hanswer, hfollows⟩ := h.refused hroom.1 hroom.2
      have hrest := hlater own hfollows
      rw [← heq] at hanswer
      rw [hanswer]
      exact .refused hroom.1 hroom.2 hrest
    · obtain ⟨hanswer, hfollows⟩ := h.charged hroom
      have hrest := hlater _ hfollows
      rw [← heq] at hanswer
      rw [hanswer]
      exact .charged hroom hrest

end RateLimiter

/-! ### How often a source is allowed -/

section

variable {perSec burst now later t₁ t₂ : Nat} {own : OwnBuckets} {key other : RateKey}

/-- Every bucket has the rate and the burst of the limiter. -/
def OwnBuckets.Rated (own : OwnBuckets) (perSec burst : Nat) : Prop :=
  ∀ key b, own key = some b → b.Rated perSec burst

/-- What a source may still spend. -/
def OwnBuckets.tokensAt (own : OwnBuckets) (perSec burst : Nat) (key : RateKey) (now : Nat) : Nat :=
  (own.bucket perSec burst key now).tokensAt now

theorem OwnBuckets.Rated.bucket (h : own.Rated perSec burst) (key : RateKey) (now : Nat) :
    (own.bucket perSec burst key now).Rated perSec burst := by
  unfold OwnBuckets.bucket
  cases hown : own key with
  | none => exact TokenBucket.rated_new ..
  | some b => exact h key b hown

theorem OwnBuckets.Rated.take (h : own.Rated perSec burst) (key : RateKey) (now : Nat) :
    (own.take perSec burst key now).2.Rated perSec burst := by
  intro k b hb
  have hbucket := (h.bucket key now).tryTake now
  change update own key (some _) k = some b at hb
  by_cases hk : k = key
  · rw [hk, update_self] at hb
    cases hb
    exact hbucket
  · rw [update_of_ne hk] at hb
    exact h k b hb

theorem OwnBuckets.Rated.tokensAt_le (h : own.Rated perSec burst) (key : RateKey) (now : Nat) :
    own.tokensAt perSec burst key now ≤ min (burst * 1000) maxU32 :=
  (h.bucket key now).tokensAt_le now

theorem OwnBuckets.Rated.tokensAt_later (h : own.Rated perSec burst) (key : RateKey)
    (now later : Nat) : own.tokensAt perSec burst key later ≤
      own.tokensAt perSec burst key now + perSec * (later - now) := by
  cases hown : own key with
  | none =>
    have hfull : own.tokensAt perSec burst key now = min (burst * 1000) maxU32 := by
      simp only [tokensAt, OwnBuckets.bucket, hown, Option.getD_none,
        (TokenBucket.rated_new perSec burst now).tokensAt now]
      simp only [TokenBucket.new]
      omega
    have hle := h.tokensAt_le key later
    omega
  | some b =>
    simp only [tokensAt, OwnBuckets.bucket, hown, Option.getD_some]
    exact (h key b hown).tokensAt_later now later

theorem OwnBuckets.Rated.take_spend (h : own.Rated perSec burst) (key : RateKey) (now : Nat) :
    (own.take perSec burst key now).2.tokensAt perSec burst key now +
      (if (own.take perSec burst key now).1 then costMt else 0) =
        own.tokensAt perSec burst key now := by
  have hspend := TokenBucket.tryTake_spend (h.bucket key now) now
  have hown : (own.take perSec burst key now).2 key =
      some ((own.bucket perSec burst key now).tryTake now).2 := update_self ..
  simp only [OwnBuckets.tokensAt]
  simp only [OwnBuckets.bucket, hown, Option.getD_some]
  exact hspend

theorem OwnBuckets.take_other (hne : other ≠ key) (own : OwnBuckets) :
    (own.take perSec burst key now).2.tokensAt perSec burst other later =
      own.tokensAt perSec burst other later := by
  have hown : (own.take perSec burst key now).2 other = own other := update_of_ne hne ..
  simp only [OwnBuckets.tokensAt, OwnBuckets.bucket, hown]

theorem allowedIn_cons (key : RateKey) (t₁ t₂ : Nat) (ip : IpAddr) (now : Nat) (allowed : Bool)
    (calls : List (IpAddr × Nat)) (answers : List Bool) :
    allowedIn key t₁ t₂ ((ip, now) :: calls) (allowed :: answers) =
      allowedIn key t₁ t₂ calls answers +
        (if allowed ∧ RateKey.fromIp ip = key ∧ t₁ ≤ now ∧ now ≤ t₂ then 1 else 0) := by
  simp only [allowedIn, List.zip_cons_cons, List.countP_cons, decide_eq_true_eq]

theorem allowedIn_late {calls : List (IpAddr × Nat)} (h : ∀ call ∈ calls, t₂ < call.2)
    (key : RateKey) (t₁ : Nat) (answers : List Bool) : allowedIn key t₁ t₂ calls answers = 0 := by
  rw [allowedIn, List.countP_eq_zero]
  intro e he
  obtain ⟨⟨ip, now⟩, allowed⟩ := e
  have hlate : t₂ < now := h (ip, now) (List.of_mem_zip he).1
  rw [decide_eq_true_eq]
  omega

/-- From an instant on, a source is allowed what it may spend then and what it gains later. -/
theorem Independent.spent {backend : Backend} {l : RateLimiter} {calls : List (IpAddr × Nat)}
    {answers : List Bool} (h : Independent backend l own calls answers)
    (hrated : own.Rated l.perSec l.burst) (htimes : calls.Pairwise fun a b => a.2 ≤ b.2)
    (hnow : ∀ call ∈ calls, now ≤ call.2) (hle : now ≤ t₂) (key : RateKey) (t₁ : Nat) :
    costMt * allowedIn key t₁ t₂ calls answers ≤
      own.tokensAt l.perSec l.burst key now + l.perSec * (t₂ - now) := by
  induction h generalizing now with
  | nil l own => exact Nat.zero_le _
  | @charged l own ip now' calls answers hroom hrest ih =>
    obtain ⟨hfirst, htimes⟩ := List.pairwise_cons.mp htimes
    have hfirst : ∀ call ∈ calls, now' ≤ call.2 := hfirst
    have hstart : now ≤ now' := hnow (ip, now') List.mem_cons_self
    obtain ⟨hsec, hburst, -⟩ := RateLimiter.allowOn_settings backend l ip now'
    rcases Nat.lt_or_ge t₂ now' with hlate | hin
    · rw [allowedIn_late]
      · exact Nat.zero_le _
      · intro call hcall
        rcases List.mem_cons.mp hcall with rfl | hcall
        · exact hlate
        · exact Nat.lt_of_lt_of_le hlate (hfirst call hcall)
    · have hrated' := hrated.take (.fromIp ip) now'
      have ih := ih (by rw [hsec, hburst]; exact hrated') htimes hfirst hin
      have hgain := hrated.tokensAt_later key now now'
      have hsplit : l.perSec * (now' - now) + l.perSec * (t₂ - now') = l.perSec * (t₂ - now) := by
        rw [← Nat.mul_add]
        congr 1
        omega
      rw [hsec, hburst] at ih
      rw [allowedIn_cons, Nat.mul_add]
      by_cases hkey : RateKey.fromIp ip = key
      · subst hkey
        have hspend := hrated.take_spend (.fromIp ip) now'
        have hcount : costMt * (if (own.take l.perSec l.burst (.fromIp ip) now').1 ∧
            RateKey.fromIp ip = RateKey.fromIp ip ∧ t₁ ≤ now' ∧ now' ≤ t₂ then 1 else 0) ≤
            if (own.take l.perSec l.burst (.fromIp ip) now').1 then costMt else 0 := by
          split
          · rename_i hallowed
            rw [if_pos hallowed.1]
            omega
          · exact Nat.zero_le _
        omega
      · rw [OwnBuckets.take_other (Ne.symm hkey)] at ih
        rw [if_neg (fun h => hkey h.2.1)]
        omega
  | @refused l own ip now' calls answers hentry hfull hrest ih =>
    obtain ⟨hfirst, htimes⟩ := List.pairwise_cons.mp htimes
    have hstart : now ≤ now' := hnow (ip, now') List.mem_cons_self
    obtain ⟨hsec, hburst, -⟩ := RateLimiter.allowOn_settings backend l ip now'
    have hlater : ∀ call ∈ calls, now ≤ call.2 := fun call hcall =>
      hstart.trans (hfirst call hcall)
    have ih := ih (by rw [hsec, hburst]; exact hrated) htimes hlater hle
    rw [hsec, hburst] at ih
    rw [allowedIn_cons, if_neg (fun h => Bool.noConfusion h.1)]
    exact ih

/-- In an interval, a source is allowed a burst and what it gains meanwhile. -/
theorem Independent.allowedIn_le {backend : Backend} {l : RateLimiter}
    {calls : List (IpAddr × Nat)} {answers : List Bool}
    (h : Independent backend l own calls answers) (hrated : own.Rated l.perSec l.burst)
    (htimes : calls.Pairwise fun a b => a.2 ≤ b.2) (key : RateKey) (t₁ t₂ : Nat) :
    costMt * allowedIn key t₁ t₂ calls answers ≤
      min (l.burst * 1000) maxU32 + l.perSec * (t₂ - t₁) := by
  have hinside : ∀ {l : RateLimiter} {own : OwnBuckets} {ip : IpAddr} {now : Nat}
      {calls : List (IpAddr × Nat)} {answers : List Bool},
      Independent backend l own ((ip, now) :: calls) answers → own.Rated l.perSec l.burst →
      ((ip, now) :: calls).Pairwise (fun a b => a.2 ≤ b.2) → t₁ ≤ now →
      costMt * allowedIn key t₁ t₂ ((ip, now) :: calls) answers ≤
        min (l.burst * 1000) maxU32 + l.perSec * (t₂ - t₁) := by
    intro l own ip now calls answers h hrated htimes hge
    obtain ⟨hfirst, -⟩ := List.pairwise_cons.mp htimes
    have hstart : ∀ call ∈ (ip, now) :: calls, now ≤ call.2 := by
      intro call hcall
      rcases List.mem_cons.mp hcall with rfl | hcall
      · exact Nat.le_refl _
      · exact hfirst call hcall
    rcases Nat.lt_or_ge t₂ now with hlate | hin
    · rw [allowedIn_late fun call hcall => Nat.lt_of_lt_of_le hlate (hstart call hcall)]
      exact Nat.zero_le _
    · have hspent := h.spent hrated htimes hstart hin key t₁
      have hfull := hrated.tokensAt_le key now
      have hgain := Nat.mul_le_mul_left l.perSec (Nat.sub_le_sub_left hge t₂)
      omega
  induction h with
  | nil l own => exact Nat.zero_le _
  | @charged l own ip now calls answers hroom hrest ih =>
    rcases Nat.lt_or_ge now t₁ with hearly | hge
    · obtain ⟨hsec, hburst, -⟩ := RateLimiter.allowOn_settings backend l ip now
      have ih := ih (by rw [hsec, hburst]; exact hrated.take _ now) (List.pairwise_cons.mp htimes).2
      rw [hsec, hburst] at ih
      rw [allowedIn_cons, if_neg (fun h => Nat.not_le_of_lt hearly h.2.2.1)]
      exact ih
    · exact hinside (.charged hroom hrest) hrated htimes hge
  | @refused l own ip now calls answers hentry hfull hrest ih =>
    rcases Nat.lt_or_ge now t₁ with hearly | hge
    · obtain ⟨hsec, hburst, -⟩ := RateLimiter.allowOn_settings backend l ip now
      have ih := ih (by rw [hsec, hburst]; exact hrated) (List.pairwise_cons.mp htimes).2
      rw [hsec, hburst] at ih
      rw [allowedIn_cons, if_neg (fun h => Nat.not_le_of_lt hearly h.2.2.1)]
      exact ih
    · exact hinside (.refused hentry hfull hrest) hrated htimes hge

end

/-- The answers of a limiter are those of one bucket for every source, none of them ever forgotten,
but for a source that is refused when the table is full of others. In an interval a source is
allowed a burst and what it gains meanwhile, whoever else comes and goes. -/
theorem rate_limiter_independent {backend : Backend} (perSec burst maxEntries : Nat)
    (hfits : RateLimiter.Fits backend maxEntries) {calls : List (IpAddr × Nat)}
    (htimes : calls.Pairwise fun a b => a.2 ≤ b.2) :
    Independent backend (.new perSec burst maxEntries) (fun _ => none) calls
        (RateLimiter.answers backend (.new perSec burst maxEntries) calls) ∧
      ∀ source t₁ t₂, allowedIn source t₁ t₂ calls
          (RateLimiter.answers backend (.new perSec burst maxEntries) calls) ≤
        (min (1000 * burst) (2 ^ 32 - 1) + perSec * (t₂ - t₁)) / 1000 := by
  have hindependent : Independent backend (.new perSec burst maxEntries) (fun _ => none) calls
      (RateLimiter.answers backend (.new perSec burst maxEntries) calls) :=
    RateLimiter.Follows.independent hfits htimes fun call _ =>
      RateLimiter.follows_new perSec burst maxEntries call.2
  refine ⟨hindependent, fun source t₁ t₂ => ?_⟩
  have hrated : OwnBuckets.Rated (fun _ => none) perSec burst := fun key b hb => by cases hb
  have hle := hindependent.allowedIn_le hrated htimes source t₁ t₂
  rw [Nat.le_div_iff_mul_le (by decide), Nat.mul_comm, Nat.mul_comm 1000 burst]
  exact hle

/-- A table with room for one source: the second is refused until the bucket of the first is full.
-/
theorem rate_limiter_independent_full :
    let calls : List (IpAddr × Nat) := [(.v4 1, 0), (.v4 2, 500), (.v4 2, 1000), (.v4 1, 1000)]
    let answers := RateLimiter.answers .inline (.new 1 1 1) calls
    answers = [true, false, true, false] ∧
      Independent .inline (.new 1 1 1) (fun _ => none) calls answers ∧
      ∀ source t₁ t₂, allowedIn source t₁ t₂ calls answers ≤
        (min (1000 * 1) (2 ^ 32 - 1) + 1 * (t₂ - t₁)) / 1000 :=
  ⟨by decide, rate_limiter_independent 1 1 1 (fun _ => by decide) (by decide)⟩

end Microtun
