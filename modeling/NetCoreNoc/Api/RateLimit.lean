import Mathlib
import NetCoreNoc.Buckets
import NetCoreNoc.Runs
import NetCoreNoc.Tables

/-! The rate limit of the API (`api/perimeter.py`): a token bucket for each client, in a table that is bounded. -/
namespace NetCoreNoc.Api.RateLimit
open Tables Runs Buckets

def RATE_CAPACITY : ℚ := 30
def RATE_REFILL : ℚ := 10
def PREVIEW_RATE_CAPACITY : ℚ := 3
def PREVIEW_RATE_REFILL : ℚ := 1 / 10
def REQUEST_CAPACITY : ℚ := 5
def REQUEST_REFILL : ℚ := 5 / 3600

/-- The capacity and the refill of every limiter that the API makes. -/
def LIMITERS : List (ℚ × ℚ) :=
  [(RATE_CAPACITY, RATE_REFILL), (PREVIEW_RATE_CAPACITY, PREVIEW_RATE_REFILL), (REQUEST_CAPACITY, REQUEST_REFILL),
    (REQUEST_CAPACITY * 2, REQUEST_REFILL * 4)]

/-- A token fits in each of them, and comes in. -/
theorem limiters_serve : ∀ l ∈ LIMITERS, 1 ≤ l.1 ∧ 0 < l.2 := by
  norm_num [LIMITERS, RATE_CAPACITY, RATE_REFILL, PREVIEW_RATE_CAPACITY, PREVIEW_RATE_REFILL, REQUEST_CAPACITY,
    REQUEST_REFILL]

/-- Keys that the table may hold before it is bounded, and those that it then keeps. -/
def MAX_KEYS : ℕ := 4096
def KEPT_KEYS : ℕ := 2048

/-- `RateLimiter` -/
structure RateLimiter (K : Type) where
  capacity : ℚ
  refill : ℚ
  buckets : Table K (Bucket ℚ) := .empty

namespace RateLimiter
variable {K : Type} (r : RateLimiter K) (now : ℚ)

def level (item : K × Bucket ℚ) : ℚ := Buckets.level r.capacity r.refill item.2 now

/-- The entries of the least levels, of equal ones those that stand first. -/
def emptiest : List (K × Bucket ℚ) :=
  (r.buckets.entries.insertionSort fun d e => r.level now d ≤ r.level now e).take KEPT_KEYS

/-- `_bound` -/
def bound : Table K (Bucket ℚ) :=
  r.buckets.keep (r.emptiest now) ((List.take_sublist _ _).subperm.trans (List.perm_insertionSort _ _).subperm)

/-- The table as a call leaves it to its own entry. -/
def bounded : Table K (Bucket ℚ) := if MAX_KEYS < r.buckets.size then r.bound now else r.buckets

variable [DecidableEq K] (k x : K)

/-- What the bucket of a key holds; where there is none, it is as good as full. -/
def held : ℚ := Buckets.level r.capacity r.refill ((r.buckets.get k).getD ⟨r.capacity, now⟩) now

def allow : Bool × RateLimiter K :=
  let tokens := r.held now k
  let buckets := r.bounded now
  if tokens < 1 then (false, { r with buckets := buckets.upsert k ⟨tokens, now⟩ fun _ => ⟨tokens, now⟩ })
  else (true, { r with buckets := buckets.upsert k ⟨tokens - 1, now⟩ fun _ => ⟨tokens - 1, now⟩ })

/-- What a call forgives a key: what its bucket is short of full, where a call of another has it forgotten. -/
def forgives : ℚ := if x ≠ k ∧ ((r.bounded now).get x).isNone then r.capacity - r.held now x else 0

/-- A call, and when. -/
def step (r : RateLimiter K) (c : K × ℚ) : RateLimiter K := (r.allow c.2 c.1).2

end RateLimiter

section Calls
variable {K : Type} {r : RateLimiter K} {k x : K} {now : ℚ}

theorem RateLimiter.mem_bound {e : K × Bucket ℚ} (h : e ∈ (r.bound now).entries) : e ∈ r.buckets.entries :=
  (List.mem_insertionSort _).mp (List.mem_of_mem_take h)

theorem RateLimiter.mem_bounded {e : K × Bucket ℚ} (h : e ∈ (r.bounded now).entries) : e ∈ r.buckets.entries := by
  unfold bounded at h
  split at h
  · exact mem_bound h
  · exact h

theorem RateLimiter.size_bounded (r : RateLimiter K) (now : ℚ) : (r.bounded now).size ≤ MAX_KEYS := by
  unfold bounded
  split
  · exact (List.length_take_le _ _).trans (by decide)
  · next h => exact not_lt.mp h

/-- What is forgotten is at least as full as all that is kept. -/
theorem RateLimiter.bounded_fullest {d e : K × Bucket ℚ} (hd : d ∈ r.buckets.entries)
    (hgone : d ∉ (r.bounded now).entries) (he : e ∈ (r.bounded now).entries) : r.level now e ≤ r.level now d := by
  unfold bounded at hgone he
  split at hgone
  · next hmany =>
    rw [if_pos hmany] at he
    have hsorted := List.pairwise_insertionSort (fun d e : K × Bucket ℚ => r.level now d ≤ r.level now e)
      r.buckets.entries
    have hin := (List.mem_insertionSort fun d e : K × Bucket ℚ => r.level now d ≤ r.level now e).mpr hd
    rw [← List.take_append_drop KEPT_KEYS (List.insertionSort _ _)] at hsorted hin
    exact (List.pairwise_append.mp hsorted).2.2 _ he _ ((List.mem_append.mp hin).resolve_left hgone)
  · exact absurd hd hgone

variable [DecidableEq K]

theorem RateLimiter.held_le (r : RateLimiter K) (now : ℚ) (x : K) : r.held now x ≤ r.capacity := level_le _ _ _ _

theorem RateLimiter.held_of_none (h : r.buckets.get x = none) : r.held now x = r.capacity := by
  rw [held, h]
  exact (level_touched _ _).trans (min_self _)

theorem RateLimiter.get_bounded {b : Bucket ℚ} (h : (r.bounded now).get x = some b) : r.buckets.get x = some b := by
  rw [Table.get_eq_some] at h ⊢
  exact mem_bounded h

theorem RateLimiter.bounded_none (h : r.buckets.get x = none) : (r.bounded now).get x = none := by
  cases hleft : (r.bounded now).get x with
  | none => rfl
  | some b => exact absurd ((get_bounded hleft).symm.trans h) nofun

/-- The key's own entry after a call, the others as the table was left. -/
theorem RateLimiter.allow_spec (r : RateLimiter K) (now : ℚ) (k : K) :
    (r.allow now k).2.capacity = r.capacity ∧ (r.allow now k).2.refill = r.refill ∧
    (r.allow now k).1 = decide (1 ≤ r.held now k) ∧
    (r.allow now k).2.buckets.get k = some ⟨r.held now k - if 1 ≤ r.held now k then 1 else 0, now⟩ ∧
    (∀ x ≠ k, (r.allow now k).2.buckets.get x = (r.bounded now).get x) ∧
    (r.allow now k).2.buckets.size ≤ MAX_KEYS + 1 := by
  unfold allow
  dsimp only
  split
  · next hshort =>
    rw [if_neg (not_le.mpr hshort), sub_zero, decide_eq_false (not_le.mpr hshort)]
    exact ⟨rfl, rfl, rfl, Table.get_upsert_self _ _ _ _, fun x hx => Table.get_upsert_of_ne _ _ _ _ _ hx,
      (Table.size_upsert_le _ _ _ _).trans (Nat.succ_le_succ (r.size_bounded now))⟩
  · next henough =>
    rw [if_pos (not_lt.mp henough), decide_eq_true (not_lt.mp henough)]
    exact ⟨rfl, rfl, rfl, Table.get_upsert_self _ _ _ _, fun x hx => Table.get_upsert_of_ne _ _ _ _ _ hx,
      (Table.size_upsert_le _ _ _ _).trans (Nat.succ_le_succ (r.size_bounded now))⟩

/-- A call takes its token from the bucket of its key, and leaves the others what they held or forgives them. -/
theorem RateLimiter.held_allow (r : RateLimiter K) (now : ℚ) (k x : K) : (r.allow now k).2.held now x =
    r.held now x - (if k = x ∧ (r.allow now k).1 then 1 else 0) + r.forgives now k x := by
  obtain ⟨hcapacity, hrefill, hanswer, hself, hother, -⟩ := r.allow_spec now k
  rcases eq_or_ne x k with rfl | hne
  · have hle : r.held now x - (if 1 ≤ r.held now x then 1 else 0) ≤ r.capacity :=
      (sub_le_self _ (by split <;> norm_num)).trans (r.held_le now x)
    have hown : r.forgives now x x = 0 := if_neg fun h => h.1 rfl
    rw [hown, add_zero, held, hself, hcapacity, hrefill, hanswer]
    refine (level_touched _ _).trans ((min_eq_right hle).trans ?_)
    simp only [true_and, decide_eq_true_eq]
  · have hnone : ¬ (k = x ∧ (r.allow now k).1 = true) := fun h => hne h.1.symm
    rw [if_neg hnone, sub_zero, forgives]
    cases hleft : (r.bounded now).get x with
    | none =>
      rw [Option.isNone_none, if_pos ⟨hne, rfl⟩, held_of_none ((hother x hne).trans hleft), hcapacity]
      ring
    | some b =>
      rw [Option.isNone_some, if_neg (fun h => Bool.noConfusion h.2), add_zero, held, held, hother x hne, hleft, hcapacity,
        hrefill, get_bounded hleft]

theorem RateLimiter.forgives_nonneg (r : RateLimiter K) (now : ℚ) (k x : K) : 0 ≤ r.forgives now k x := by
  unfold forgives
  split
  · exact sub_nonneg.mpr (r.held_le now x)
  · exact le_rfl

end Calls
/-! Calls one after another, at times that do not go back. -/

section Runs
variable {K : Type} [DecidableEq K]

/-- The calls of a key that are allowed between two times. -/
def RateLimiter.allowed (x : K) (s e : ℚ) : RateLimiter K → List (K × ℚ) → ℕ
  | _, [] => 0
  | r, c :: calls =>
    (if s ≤ c.2 ∧ c.2 ≤ e ∧ c.1 = x ∧ (r.allow c.2 c.1).1 then 1 else 0) + allowed x s e (r.step c) calls

/-- What a key is forgiven between two times. -/
def RateLimiter.forgiven (x : K) (s e : ℚ) : RateLimiter K → List (K × ℚ) → ℚ
  | _, [] => 0
  | r, c :: calls => (if s ≤ c.2 ∧ c.2 ≤ e then r.forgives c.2 c.1 x else 0) + forgiven x s e (r.step c) calls

/-- Every bucket was touched before, and holds no less than nothing. -/
structure RateLimiter.Sound (r : RateLimiter K) (now : ℚ) : Prop where
  last : ∀ k b, r.buckets.get k = some b → b.last ≤ now
  tokens : ∀ k b, r.buckets.get k = some b → 0 ≤ b.tokens

/-- A key's calls are at most what it has to spend: its bucket and what comes in, from the later of two times on. -/
def RateLimiter.credit (r : RateLimiter K) (x : K) (s e t : ℚ) : ℚ :=
  if t < s then r.capacity + r.refill * (e - s) else r.held t x + r.refill * (e - t)

variable {r : RateLimiter K} {x : K} {s e t : ℚ}

theorem RateLimiter.held_later (hrefill : 0 ≤ r.refill) (h : s ≤ t) :
    r.held t x ≤ r.held s x + r.refill * (t - s) := by
  cases hget : r.buckets.get x with
  | none =>
    rw [held_of_none hget, held_of_none hget]
    exact le_add_of_nonneg_right (mul_nonneg hrefill (sub_nonneg.mpr h))
  | some b =>
    rw [held, held, hget]
    exact level_later hrefill h

theorem RateLimiter.Sound.held_nonneg (h : r.Sound s) (hcapacity : 0 ≤ r.capacity) (hrefill : 0 ≤ r.refill)
    (hst : s ≤ t) : 0 ≤ r.held t x := by
  cases hget : r.buckets.get x with
  | none => rwa [held_of_none hget]
  | some b =>
    rw [held, hget]
    exact level_nonneg hcapacity hrefill (h.tokens x b hget) ((h.last x b hget).trans hst)

theorem RateLimiter.Sound.step (h : r.Sound s) (hcapacity : 0 ≤ r.capacity) (hrefill : 0 ≤ r.refill) {c : K × ℚ}
    (hc : s ≤ c.2) : (r.step c).Sound c.2 := by
  obtain ⟨-, -, -, hself, hother, -⟩ := r.allow_spec c.2 c.1
  have hspent : 0 ≤ r.held c.2 c.1 - if 1 ≤ r.held c.2 c.1 then 1 else 0 := by
    split
    · next henough => exact sub_nonneg.mpr henough
    · rw [sub_zero]
      exact h.held_nonneg hcapacity hrefill hc
  refine ⟨fun k b hb => ?_, fun k b hb => ?_⟩ <;> rcases eq_or_ne k c.1 with rfl | hne
  · obtain rfl := Option.some.inj (hself.symm.trans hb)
    exact le_rfl
  · exact (h.last k b (get_bounded ((hother k hne).symm.trans hb))).trans hc
  · obtain rfl := Option.some.inj (hself.symm.trans hb)
    exact hspent
  · exact h.tokens k b (get_bounded ((hother k hne).symm.trans hb))

theorem RateLimiter.forgiven_nonneg (x : K) (s e : ℚ) : ∀ (r : RateLimiter K) (calls : List (K × ℚ)),
    0 ≤ forgiven x s e r calls
  | _, [] => le_rfl
  | r, c :: calls => by
    rw [forgiven]
    refine add_nonneg ?_ (forgiven_nonneg x s e (r.step c) calls)
    split
    · exact r.forgives_nonneg c.2 c.1 x
    · exact le_rfl

variable {calls : List (K × ℚ)}

theorem RateLimiter.allowed_late (r : RateLimiter K) (x : K) (s : ℚ) (h : ∀ c ∈ calls, e < c.2) :
    allowed x s e r calls = 0 := by
  induction calls generalizing r with
  | nil => rfl
  | cons c calls ih =>
    obtain ⟨hc, hcalls⟩ := List.forall_mem_cons.mp h
    rw [allowed, if_neg (fun hin => absurd hin.2.1 (not_le.mpr hc)), ih _ hcalls]

/-- A call within the time is paid for out of the credit, or what it finds missing is forgiven. -/
theorem RateLimiter.credit_step (hrefill : 0 ≤ r.refill) {c : K × ℚ} (hst : t ≤ c.2) (hs : s ≤ c.2) :
    (if c.1 = x ∧ (r.allow c.2 c.1).1 then 1 else 0) + (r.step c).credit x s e c.2 ≤
      r.credit x s e t + r.forgives c.2 c.1 x := by
  obtain ⟨-, hsame, -⟩ := r.allow_spec c.2 c.1
  have hafter := r.held_allow c.2 c.1 x
  have hcredit : r.held c.2 x + r.refill * (e - c.2) ≤ r.credit x s e t := by
    unfold credit
    split
    · have hearlier : r.refill * (e - c.2) ≤ r.refill * (e - s) := mul_le_mul_of_nonneg_left (by linarith) hrefill
      linarith [r.held_le c.2 x]
    · linarith [r.held_later (x := x) hrefill hst, mul_sub r.refill e t, mul_sub r.refill e c.2, mul_sub r.refill c.2 t]
  have hrest : (r.step c).credit x s e c.2 = (r.step c).held c.2 x + r.refill * (e - c.2) := by
    rw [credit, if_neg (not_lt.mpr hs), step, hsame]
  rw [hrest, step, hafter]
  linarith

theorem RateLimiter.Sound.credit_nonneg (h : r.Sound t) (hcapacity : 0 ≤ r.capacity) (hrefill : 0 ≤ r.refill)
    (hse : s ≤ e) (hte : t ≤ e) : 0 ≤ r.credit x s e t := by
  unfold credit
  split
  · exact add_nonneg hcapacity (mul_nonneg hrefill (sub_nonneg.mpr hse))
  · exact add_nonneg (h.held_nonneg hcapacity hrefill le_rfl) (mul_nonneg hrefill (sub_nonneg.mpr hte))

/-- The calls of a key that are allowed from some time on, whatever others call. -/
theorem RateLimiter.allowed_le (hcapacity : 0 ≤ r.capacity) (hrefill : 0 ≤ r.refill)
    (hsound : r.Sound t) (hsorted : calls.Pairwise fun c d => c.2 ≤ d.2) (hfrom : ∀ c ∈ calls, t ≤ c.2) (hse : s ≤ e)
    (hte : t ≤ e) : (allowed x s e r calls : ℚ) ≤ r.credit x s e t + forgiven x s e r calls := by
  induction calls generalizing r t with
  | nil =>
    rw [allowed, forgiven, Nat.cast_zero, add_zero]
    exact hsound.credit_nonneg hcapacity hrefill hse hte
  | cons c calls ih =>
    obtain ⟨hlater, hsorted⟩ := List.pairwise_cons.mp hsorted
    obtain ⟨hc, -⟩ := List.forall_mem_cons.mp hfrom
    obtain ⟨hcap, href, -⟩ := r.allow_spec c.2 c.1
    rcases lt_or_ge e c.2 with hend | hin
    · -- the time is over, and no call after this one counts either
      have hnone : allowed x s e r (c :: calls) = 0 := allowed_late r x s fun d hd => by
        rcases List.mem_cons.mp hd with rfl | hd
        · exact hend
        · exact hend.trans_le (hlater d hd)
      rw [hnone, Nat.cast_zero]
      exact add_nonneg (hsound.credit_nonneg hcapacity hrefill hse hte) (forgiven_nonneg x s e r _)
    · have hrest := ih (r := r.step c) (t := c.2) (hcap ▸ hcapacity) (href ▸ hrefill)
        (hsound.step hcapacity hrefill hc) hsorted hlater hin
      rw [allowed, forgiven, Nat.cast_add]
      rcases lt_or_ge c.2 s with hearly | hs
      · -- the time has not begun, and the credit is what it will be then
        have hsame : (r.step c).credit x s e c.2 = r.credit x s e t := by
          rw [credit, credit, if_pos hearly, if_pos (hc.trans_lt hearly), step, hcap, href]
        rw [if_neg (fun h => absurd h.1 (not_le.mpr hearly)), if_neg (fun h => absurd h.1 (not_le.mpr hearly)),
          Nat.cast_zero, zero_add, zero_add, ← hsame]
        exact hrest
      · have hstep := credit_step (x := x) (e := e) hrefill hc hs
        rw [if_pos (⟨hs, hin⟩ : s ≤ c.2 ∧ c.2 ≤ e)]
        simp only [hs, hin, true_and]
        push_cast
        linarith

theorem RateLimiter.sound_run (hcapacity : 0 ≤ r.capacity) (hrefill : 0 ≤ r.refill)
    (hsound : r.Sound t) (hsorted : calls.Pairwise fun c d => c.2 ≤ d.2) (hfrom : ∀ c ∈ calls, t ≤ c.2) {now : ℚ}
    (hnow : ∀ c ∈ calls, c.2 ≤ now) (ht : t ≤ now) : (run step r calls).Sound now := by
  induction calls generalizing r t with
  | nil => exact ⟨fun k b hb => (hsound.last k b hb).trans ht, hsound.tokens⟩
  | cons c calls ih =>
    obtain ⟨hlater, hsorted⟩ := List.pairwise_cons.mp hsorted
    obtain ⟨hc, -⟩ := List.forall_mem_cons.mp hfrom
    obtain ⟨hcnow, hnow⟩ := List.forall_mem_cons.mp hnow
    obtain ⟨hcap, href, -⟩ := r.allow_spec c.2 c.1
    exact ih (hcap ▸ hcapacity) (href ▸ hrefill) (hsound.step hcapacity hrefill hc) hsorted hlater hnow hcnow

theorem RateLimiter.rates_run (r : RateLimiter K) : ∀ calls : List (K × ℚ),
    (run step r calls).capacity = r.capacity ∧ (run step r calls).refill = r.refill
  | [] => ⟨rfl, rfl⟩
  | c :: calls => by
    obtain ⟨hcap, href, -⟩ := r.allow_spec c.2 c.1
    obtain ⟨hcaps, hrefs⟩ := rates_run (r.step c) calls
    exact ⟨hcaps.trans hcap, hrefs.trans href⟩

/-- A bucket was last touched by a call of its key. -/
theorem RateLimiter.touched_run {b : Bucket ℚ} (h : (run step r calls).buckets.get x = some b) :
    r.buckets.get x = some b ∨ (x, b.last) ∈ calls := by
  induction calls generalizing r with
  | nil => exact .inl h
  | cons c calls ih =>
    obtain ⟨-, -, -, hself, hother, -⟩ := r.allow_spec c.2 c.1
    rcases ih h with hstep | hin
    · rcases eq_or_ne x c.1 with rfl | hne
      · obtain rfl := Option.some.inj (hself.symm.trans hstep)
        exact .inr List.mem_cons_self
      · exact .inl (get_bounded ((hother x hne).symm.trans hstep))
    · exact .inr (List.mem_cons_of_mem c hin)

theorem RateLimiter.size_run (h : r.buckets.size ≤ MAX_KEYS + 1) (calls : List (K × ℚ)) :
    (run step r calls).buckets.size ≤ MAX_KEYS + 1 :=
  run_always (I := fun r : RateLimiter K => r.buckets.size ≤ MAX_KEYS + 1)
    (fun r c _ => (r.allow_spec c.2 c.1).2.2.2.2.2) r calls h

omit [DecidableEq K] in
theorem exists_before (calls : List (K × ℚ)) (s : ℚ) : ∃ t < s, ∀ c ∈ calls, t ≤ c.2 := by
  induction calls with
  | nil => exact ⟨s - 1, sub_one_lt s, nofun⟩
  | cons c calls ih =>
    obtain ⟨t, ht, hall⟩ := ih
    refine ⟨min t c.2, (min_le_left _ _).trans_lt ht, List.forall_mem_cons.mpr ⟨min_le_right _ _, fun d hd => ?_⟩⟩
    exact (min_le_left _ _).trans (hall d hd)

/-- `RateLimiter(capacity, refill)` -/
def RateLimiter.new (capacity refill : ℚ) : RateLimiter K where
  capacity := capacity
  refill := refill

/-- A limiter after some calls. -/
def RateLimiter.after (capacity refill : ℚ) (calls : List (K × ℚ)) : RateLimiter K := run step (.new capacity refill) calls

theorem RateLimiter.sound_new (capacity refill now : ℚ) : (new capacity refill : RateLimiter K).Sound now where
  last _ _ h := nomatch h
  tokens _ _ h := nomatch h

/-- What a limiter promises of a run of calls. -/
structure Limits (capacity refill : ℚ) (calls : List (K × ℚ)) : Prop where
  /-- The calls of a key that are allowed in an interval, whatever the others do -/
  allowed : 0 ≤ capacity → 0 ≤ refill → ∀ x s d, 0 ≤ d →
    (RateLimiter.allowed x s (s + d) (.new capacity refill) calls : ℚ) ≤
      capacity + refill * d + RateLimiter.forgiven x s (s + d) (.new capacity refill) calls
  waited : 1 ≤ capacity → 0 < refill → ∀ x now, (∀ c ∈ calls, c.2 ≤ now) →
    (∀ c ∈ calls, c.1 = x → c.2 + 1 / refill ≤ now) → ((RateLimiter.after capacity refill calls).allow now x).1
  bounded : (RateLimiter.after capacity refill calls).buckets.size ≤ MAX_KEYS + 1
  /-- Buckets are forgotten where there are too many, and then the fullest. -/
  fullest : ∀ now, ∀ d ∈ (RateLimiter.after capacity refill calls).buckets.entries,
    d ∉ ((RateLimiter.after capacity refill calls).bounded now).entries →
    MAX_KEYS < (RateLimiter.after capacity refill calls).buckets.size ∧
      ∀ e ∈ ((RateLimiter.after capacity refill calls).bounded now).entries,
        (RateLimiter.after capacity refill calls).level now e ≤ (RateLimiter.after capacity refill calls).level now d

/-- Whatever the keys and the order of their calls, each keeps to its rate but for what is forgiven it where its bucket
is forgotten. -/
theorem limiter_limits {K : Type} [DecidableEq K] (capacity refill : ℚ) (calls : List (K × ℚ))
    (h : calls.Pairwise fun c d => c.2 ≤ d.2) : Limits capacity refill calls where
  allowed hcapacity hrefill x s d hd := by
    obtain ⟨t, hts, hall⟩ := exists_before calls s
    have hle := RateLimiter.allowed_le (r := .new capacity refill) (x := x) (s := s) (e := s + d) hcapacity hrefill
      (RateLimiter.sound_new capacity refill t) h hall (by linarith) (by linarith)
    rw [RateLimiter.credit, if_pos hts, add_sub_cancel_left] at hle
    exact hle
  waited hcapacity hrefill x now hnow hwait := by
    obtain ⟨t, ht, hall⟩ := exists_before calls now
    have hzero : 0 ≤ capacity := zero_le_one.trans hcapacity
    have hsound : (RateLimiter.after capacity refill calls).Sound now :=
      RateLimiter.sound_run (r := .new capacity refill) hzero hrefill.le (RateLimiter.sound_new capacity refill t) h hall
        hnow ht.le
    obtain ⟨hcap, href⟩ := RateLimiter.rates_run (.new capacity refill) calls
    rw [((RateLimiter.after capacity refill calls).allow_spec now x).2.2.1, decide_eq_true_eq]
    cases hget : (RateLimiter.after capacity refill calls).buckets.get x with
    | none =>
      rw [RateLimiter.held_of_none hget]
      exact hcapacity.trans_eq hcap.symm
    | some b =>
      have hcall : (x, b.last) ∈ calls := (RateLimiter.touched_run hget).resolve_left nofun
      have hlast := hwait _ hcall rfl
      rw [RateLimiter.held, hget]
      refine one_le_level (hcapacity.trans_eq hcap.symm) (hrefill.trans_eq href.symm) (hsound.tokens x b hget) ?_
      exact (congrArg (b.last + 1 / ·) href).trans_le hlast
  bounded := RateLimiter.size_run (r := .new capacity refill) (Nat.zero_le _) calls
  fullest now d hd hgone := by
    refine ⟨?_, fun e he => RateLimiter.bounded_fullest hd hgone he⟩
    by_contra hfew
    rw [RateLimiter.bounded, if_neg hfew] at hgone
    exact hgone hd

end Runs

theorem limiter_limits_two : Limits 1 1 [("10.0.0.1", (0 : ℚ)), ("10.0.0.2", 1), ("10.0.0.1", 1)] :=
  limiter_limits 1 1 _ (by decide +kernel)

/-! A crowd of clients, each with an empty bucket. -/

def flood (n : ℕ) : List (ℕ × ℚ) := (List.range n).map fun i => (i, 0)

def drained (n : ℕ) : List (ℕ × Bucket ℚ) := (List.range n).map fun i => (i, ⟨0, 0⟩)

section Flood
variable {r : RateLimiter ℕ} {n k : ℕ}

/-- A client that is not in the table is allowed, and takes the one token of its bucket. -/
theorem fresh_call (hcapacity : r.capacity = 1) (hfresh : r.buckets.get k = none) :
    (r.allow 0 k).1 = true ∧ (r.step (k, 0)).buckets.entries = (r.bounded 0).entries ++ [(k, ⟨0, 0⟩)] := by
  have hheld : r.held 0 k = 1 := (RateLimiter.held_of_none hfresh).trans hcapacity
  refine ⟨by rw [(r.allow_spec 0 k).2.2.1, hheld]; rfl, ?_⟩
  unfold RateLimiter.step RateLimiter.allow
  dsimp only
  rw [hheld, if_neg (lt_irrefl _), sub_self]
  dsimp only
  rw [Table.upsert, dif_neg ((Table.get_eq_none _ _).mp (RateLimiter.bounded_none hfresh))]

theorem drained_none {t : Table ℕ (Bucket ℚ)} (h : t.entries = drained n) (hk : n ≤ k) : t.get k = none := by
  rw [Table.get_eq_none, h, drained, List.map_map]
  intro hin
  obtain ⟨m, hm, rfl⟩ := List.mem_map.mp hin
  exact absurd (List.mem_range.mp hm) (not_lt.mpr hk)

theorem flood_succ (n : ℕ) : RateLimiter.after 1 1 (flood (n + 1)) = (RateLimiter.after 1 1 (flood n)).step (n, 0) := by
  rw [flood, List.range_succ, List.map_append, RateLimiter.after, run_append]
  rfl

theorem flood_fills : ∀ n ≤ MAX_KEYS + 1, (RateLimiter.after 1 1 (flood n)).buckets.entries = drained n
  | 0, _ => rfl
  | n + 1, hn => by
    have hfilled := flood_fills n (by omega)
    have hfew : (RateLimiter.after 1 1 (flood n)).bounded 0 = (RateLimiter.after 1 1 (flood n)).buckets := by
      refine if_neg ?_
      rw [Table.size, hfilled, drained, List.length_map, List.length_range]
      omega
    have hfresh := drained_none hfilled le_rfl
    rw [flood_succ, (fresh_call (RateLimiter.rates_run _ _).1 hfresh).2, hfew, hfilled, drained, drained,
      List.range_succ, List.map_append]
    rfl

/-- Buckets that are all as empty are kept in the order in which they came. -/
theorem flood_bounded (hcapacity : r.capacity = 1) (h : r.buckets.entries = drained (MAX_KEYS + 1)) :
    (r.bounded 0).entries = drained KEPT_KEYS := by
  have hmany : MAX_KEYS < r.buckets.size := by
    rw [Table.size, h, drained, List.length_map, List.length_range]
    exact Nat.lt_succ_self _
  have hlevel : ∀ e ∈ drained (MAX_KEYS + 1), r.level 0 e = 0 := by
    intro e he
    obtain ⟨m, -, rfl⟩ := List.mem_map.mp he
    rw [RateLimiter.level, level_touched, hcapacity]
    exact min_eq_right zero_le_one
  have hsorted : (drained (MAX_KEYS + 1)).Pairwise fun d e => r.level 0 d ≤ r.level 0 e :=
    List.pairwise_of_forall_mem_list fun d hd e he => (hlevel d hd).trans_le (hlevel e he).ge
  rw [RateLimiter.bounded, if_pos hmany]
  change r.emptiest 0 = _
  rw [RateLimiter.emptiest, h, hsorted.insertionSort_eq, drained, ← List.map_take, List.take_range]
  rfl

/-- In a full table the last of a crowd is forgotten at the call of one more. -/
theorem flood_forgets (hn : n = MAX_KEYS) :
    RateLimiter.allowed n 0 (0 + 0) (.after 1 1 (flood n)) [(n, 0), (n + 1, 0), (n, 0)] = 2 := by
  have hrates (n : ℕ) : (RateLimiter.after 1 1 (flood n)).capacity = 1 := (RateLimiter.rates_run _ _).1
  have hspent := (fresh_call (hrates n) (drained_none (flood_fills n (by omega)) le_rfl)).1
  have hfull := flood_fills (n + 1) (by omega)
  have hnext := (fresh_call (hrates (n + 1)) (drained_none hfull le_rfl)).2
  rw [flood_bounded (hrates (n + 1)) (hn ▸ hfull)] at hnext
  have hforgotten : ((RateLimiter.after 1 1 (flood (n + 1))).step (n + 1, 0)).buckets.get n = none := by
    rw [Table.get_eq_none, hnext, List.map_append, List.mem_append, not_or, drained, List.map_map]
    refine ⟨fun hin => ?_, fun hin => absurd (List.mem_singleton.mp hin) n.succ_ne_self.symm⟩
    obtain ⟨m, hm, rfl⟩ := List.mem_map.mp hin
    have hlt := List.mem_range.mp hm
    simp only [KEPT_KEYS, MAX_KEYS, Function.comp_apply] at hlt hn
    omega
  have hagain : (((RateLimiter.after 1 1 (flood (n + 1))).step (n + 1, 0)).allow 0 n).1 = true :=
    (fresh_call ((RateLimiter.allow_spec _ 0 _).1.trans (hrates (n + 1))) hforgotten).1
  rw [flood_succ] at hagain
  simp only [RateLimiter.allowed, hspent, hagain, add_zero, le_refl, true_and, if_true, Nat.succ_ne_self, false_and,
    if_false, zero_add]

end Flood

theorem RateLimiter.allowed_append {K : Type} [DecidableEq K] (x : K) (s e : ℚ) (before later : List (K × ℚ)) :
    ∀ r : RateLimiter K,
      allowed x s e r (before ++ later) = allowed x s e r before + allowed x s e (run step r before) later := by
  induction before with
  | nil => exact fun r => (Nat.zero_add _).symm
  | cons c before ih => exact fun r => by rw [List.cons_append, allowed, allowed, ih, run_cons, Nat.add_assoc]

/-- A client that has spent its one token gets another at once, as it is forgotten among a crowd of clients that have
spent theirs. -/
theorem limit_exceeded : ∃ calls : List (ℕ × ℚ), calls.Pairwise (fun c d => c.2 ≤ d.2) ∧
    1 + 1 * 0 < (RateLimiter.allowed MAX_KEYS 0 (0 + 0) (.new 1 1) calls : ℚ) := by
  refine ⟨flood MAX_KEYS ++ [(MAX_KEYS, 0), (MAX_KEYS + 1, 0), (MAX_KEYS, 0)], ?_, ?_⟩
  · refine List.pairwise_of_forall_mem_list fun c hc d hd => ?_
    have hzero : ∀ c ∈ flood MAX_KEYS ++ [(MAX_KEYS, (0 : ℚ)), (MAX_KEYS + 1, 0), (MAX_KEYS, 0)], c.2 = 0 := by
      intro c hc
      rcases List.mem_append.mp hc with hc | hc
      · obtain ⟨m, -, rfl⟩ := List.mem_map.mp hc
        rfl
      · simp only [List.mem_cons, List.not_mem_nil, or_false] at hc
        rcases hc with rfl | rfl | rfl <;> rfl
    rw [hzero c hc, hzero d hd]
  · rw [RateLimiter.allowed_append, ← RateLimiter.after, flood_forgets rfl]
    push_cast
    linarith [Nat.cast_nonneg (α := ℚ) (RateLimiter.allowed MAX_KEYS 0 (0 + 0) (.new 1 1) (flood MAX_KEYS))]

end NetCoreNoc.Api.RateLimit
