import Mathlib
import NetCoreNoc.Runs
import NetCoreNoc.Tables
import NetCoreNoc.Text

/-! The backoff of failed sign-ins (`crosscutting/auth.py`), per username and per address. -/
namespace NetCoreNoc.Api.Throttle
open Tables Runs Json

def LOCKOUT_THRESHOLD : ℕ := 5
def LOCKOUT_BASE_S : ℚ := 1
def LOCKOUT_MAX_S : ℚ := 15 * 60
def THROTTLE_KEYS : ℕ := 4096

/-- A power of two from this one on is beyond a float. -/
def FLOAT_BITS : ℕ := 1024

/-- `_Attempts` -/
structure Attempts where
  fails : ℕ := 0
  locked_until : ℚ := 0
  deriving DecidableEq

inductive Raised where
  | overflowError
  deriving DecidableEq

/-- `_delay`: the power is an integer, made a float where it meets the base and before it is capped. -/
def delay (fails : ℕ) : Except Raised ℚ :=
  if fails < LOCKOUT_THRESHOLD then .ok 0
  else if FLOAT_BITS ≤ fails - LOCKOUT_THRESHOLD then .error .overflowError
  else .ok (min (LOCKOUT_BASE_S * 2 ^ (fails - LOCKOUT_THRESHOLD)) LOCKOUT_MAX_S)

section
variable {K : Type} (t : Table K Attempts) (now : ℚ)

/-- One table's turn in `record_failure`; what it raises leaves the count raised. -/
def fail [DecidableEq K] (k : K) : Except Raised Unit × Table K Attempts :=
  let t := t.upsert k {} fun st => { st with fails := st.fails + 1 }
  match delay ((t.get k).getD {}).fails with
  | .error e => (.error e, t)
  | .ok d => (.ok (), if 0 < d then t.upsert k {} fun st => { st with locked_until := now + d } else t)

/-- What `_bound` keeps first: the entries that impose something, or did until lately. -/
def imposes (st : Attempts) : Bool := ¬ (st.fails < LOCKOUT_THRESHOLD ∨ st.locked_until < now - LOCKOUT_MAX_S)

def imposing : Table K Attempts := t.keep (t.entries.filter fun e => imposes now e.2) List.filter_sublist.subperm

/-- The last entries of those sorted by the end of their locks -/
def latest (n : ℕ) : Table K Attempts :=
  t.keep ((t.entries.insertionSort fun d e => d.2.locked_until ≤ e.2.locked_until).drop (t.size - n))
    ((List.drop_sublist _ _).subperm.trans (List.perm_insertionSort _ _).subperm)

/-- One table's turn in `_bound` -/
def bound : Table K Attempts :=
  if t.size ≤ THROTTLE_KEYS then t
  else if (imposing t now).size ≤ THROTTLE_KEYS then imposing t now
  else latest (imposing t now) THROTTLE_KEYS

variable {t now}

theorem mem_imposing {e : K × Attempts} :
    e ∈ (imposing t now).entries ↔ e ∈ t.entries ∧ 5 ≤ e.2.fails ∧ now - 900 ≤ e.2.locked_until := by
  refine List.mem_filter.trans (and_congr_right fun _ => decide_eq_true_iff.trans ?_)
  rw [not_or, not_lt, not_lt, LOCKOUT_THRESHOLD, LOCKOUT_MAX_S]
  norm_num

theorem mem_latest {n : ℕ} {e : K × Attempts} (h : e ∈ (latest t n).entries) : e ∈ t.entries :=
  (List.mem_insertionSort _).mp (List.mem_of_mem_drop h)

theorem size_latest (t : Table K Attempts) (n : ℕ) : (latest t n).size ≤ n := by
  change (List.drop _ _).length ≤ n
  rw [List.length_drop, List.length_insertionSort, Table.size]
  omega

theorem size_latest_eq {n : ℕ} (h : n ≤ t.size) : (latest t n).size = n := by
  change (List.drop _ _).length = n
  rw [List.length_drop, List.length_insertionSort, Table.size] at *
  omega

theorem latest_fair {n : ℕ} {d e : K × Attempts} (hd : d ∈ t.entries) (hgone : d ∉ (latest t n).entries)
    (he : e ∈ (latest t n).entries) : d.2.locked_until ≤ e.2.locked_until := by
  have hsorted := List.pairwise_insertionSort (fun d e : K × Attempts => d.2.locked_until ≤ e.2.locked_until)
    t.entries
  have hin := (List.mem_insertionSort fun d e : K × Attempts => d.2.locked_until ≤ e.2.locked_until).mpr hd
  rw [← List.take_append_drop (t.size - n) (List.insertionSort _ _)] at hsorted hin
  exact (List.pairwise_append.mp hsorted).2.2 _ ((List.mem_append.mp hin).resolve_right hgone) _ he

theorem mem_bound {e : K × Attempts} (h : e ∈ (bound t now).entries) : e ∈ t.entries := by
  unfold bound at h
  split at h
  · exact h
  · split at h
    · exact (mem_imposing.mp h).1
    · exact (mem_imposing.mp (mem_latest h)).1

theorem size_bound (t : Table K Attempts) (now : ℚ) : (bound t now).size ≤ THROTTLE_KEYS := by
  unfold bound
  split
  · assumption
  · split
    · assumption
    · exact size_latest _ _

/-- An entry goes only out of too many; one that imposes something goes only where as many as may stay do, all of them
locks that end no sooner. -/
theorem bound_sparing {d : K × Attempts} (hd : d ∈ t.entries) (hgone : d ∉ (bound t now).entries) :
    THROTTLE_KEYS < t.size ∧ (5 ≤ d.2.fails → now - 900 ≤ d.2.locked_until → (bound t now).size = THROTTLE_KEYS ∧
      ∀ e ∈ (bound t now).entries, 5 ≤ e.2.fails ∧ d.2.locked_until ≤ e.2.locked_until) := by
  have hlong : ¬ t.size ≤ THROTTLE_KEYS := fun h => hgone (by rwa [bound, if_pos h])
  refine ⟨not_le.mp hlong, fun hfails huntil => ?_⟩
  have himposing : d ∈ (imposing t now).entries := mem_imposing.mpr ⟨hd, hfails, huntil⟩
  have hmany : ¬ (imposing t now).size ≤ THROTTLE_KEYS := fun h => hgone (by rwa [bound, if_neg hlong, if_pos h])
  rw [bound, if_neg hlong, if_neg hmany] at hgone ⊢
  exact ⟨size_latest_eq (not_le.mp hmany).le,
    fun e he => ⟨(mem_imposing.mp (mem_latest he)).2.1, latest_fair himposing hgone he⟩⟩

end

/-- `LoginThrottle` -/
structure LoginThrottle (U I : Type) where
  by_user : Table U Attempts := .empty
  by_ip : Table I Attempts := .empty

section
variable {U I : Type} [DecidableEq U] [DecidableEq I] (s : LoginThrottle U I) (username : U) (source_ip : I) (now : ℚ)

def LoginThrottle.locked_for : ℚ :=
  max 0 ([s.by_user.get username, s.by_ip.get source_ip].foldl
    (fun remaining state => match state with
      | some st => max remaining (st.locked_until - now)
      | none => remaining) 0)

def LoginThrottle.record_failure : Except Raised Unit × LoginThrottle U I :=
  match fail s.by_user now username with
  | (.error e, by_user) => (.error e, { s with by_user })
  | (.ok (), by_user) =>
    match fail s.by_ip now source_ip with
    | (.error e, by_ip) => (.error e, { by_user, by_ip })
    | (.ok (), by_ip) => (.ok (), { by_user := bound by_user now, by_ip := bound by_ip now })

def LoginThrottle.record_success : LoginThrottle U I where
  by_user := s.by_user.erase username
  by_ip := s.by_ip.erase source_ip

end

/-! What the throttle is for: a key's failures, the latest first, and when the lock they earn ends. -/

def lock_end (failures : List ℚ) : Option ℚ :=
  if 5 ≤ failures.length then failures.head?.map (· + min (2 ^ (failures.length - 5)) 900) else none

section
variable {K : Type} [DecidableEq K]

def failed (g : K → List ℚ) (k : K) (now : ℚ) : K → List ℚ := Function.update g k (now :: g k)

/-- The failures of the keys that a table holds; those of the others are forgotten. -/
def remembered (t : Table K Attempts) (g : K → List ℚ) (k : K) : List ℚ := if (t.get k).isSome then g k else []

/-- A lock that is on before a failure and forgotten with it leaves nothing but locks that end no sooner. -/
def Fair (before after : K → List ℚ) (now : ℚ) : Prop :=
  ∀ x ends, lock_end (before x) = some ends → now < ends → after x = [] →
    ∀ y, after y ≠ [] → ∃ later, lock_end (after y) = some later ∧ ends ≤ later

/-- A failure makes a table forget a key only where there are more than it may hold; and one whose lock is on, or was
within the longest backoff, only where as many as it may hold stay, with locks that end no sooner. -/
def Sparing (before after : K → List ℚ) (now : ℚ) : Prop :=
  ∀ x, before x ≠ [] → after x = [] → (∃ keys : Finset K, 4096 < keys.card ∧ ∀ k ∈ keys, before k ≠ []) ∧
    ∀ ends, lock_end (before x) = some ends → now - 900 ≤ ends →
      ∃ keys : Finset K, keys.card = 4096 ∧ ∀ k ∈ keys, ∃ later, lock_end (after k) = some later ∧ ends ≤ later

/-- The entry of a key with these failures -/
def recorded (failures : List ℚ) : Option Attempts :=
  if failures = [] then none else some ⟨failures.length, (lock_end failures).getD 0⟩

theorem delay_ok {n : ℕ} (h : n < 1029) : delay n = .ok (if n < 5 then 0 else min (2 ^ (n - 5)) 900) := by
  unfold delay LOCKOUT_THRESHOLD FLOAT_BITS LOCKOUT_BASE_S LOCKOUT_MAX_S
  split
  · rfl
  · rw [if_neg (by omega), one_mul]
    norm_num

theorem recorded_cons (now : ℚ) (failures : List ℚ) : recorded (now :: failures) =
    some ⟨failures.length + 1,
      if failures.length + 1 < 5 then 0 else now + min (2 ^ (failures.length + 1 - 5)) 900⟩ := by
  rw [recorded, if_neg (List.cons_ne_nil _ _), lock_end, List.length_cons]
  split <;> split
  · omega
  · rfl
  · rfl
  · omega

variable {failures : List ℚ}

theorem recorded_some : (recorded failures).isSome ↔ failures ≠ [] := by
  unfold recorded
  split
  · rename_i hnil
    exact ⟨fun h => absurd h Bool.false_ne_true, fun h => absurd hnil h⟩
  · rename_i hne
    exact ⟨fun _ => hne, fun _ => rfl⟩

theorem recorded_locked {fails : ℕ} {ends : ℚ} :
    recorded failures = some ⟨fails, ends⟩ ∧ 5 ≤ fails ↔ lock_end failures = some ends ∧ failures.length = fails := by
  unfold recorded lock_end
  split
  · rename_i hnil
    subst hnil
    exact ⟨fun h => absurd h.1 nofun, fun h => absurd h.1 nofun⟩
  · rename_i hne
    obtain ⟨last, rest, rfl⟩ := List.exists_cons_of_ne_nil hne
    split
    · rename_i hlen
      refine ⟨?_, ?_⟩
      · rintro ⟨hst, -⟩
        cases hst
        exact ⟨rfl, rfl⟩
      · rintro ⟨hend, hfails⟩
        refine ⟨congrArg some ?_, hfails ▸ hlen⟩
        exact congrArg₂ Attempts.mk hfails (congrArg (Option.getD · 0) hend)
    · rename_i hlen
      refine ⟨?_, fun h => absurd h.1 nofun⟩
      rintro ⟨hst, hfive⟩
      cases hst
      exact absurd hfive hlen

variable {t : Table K Attempts} {k : K}

theorem fail_spec (h : t.get k = recorded failures) (hlt : failures.length < 1028) (now : ℚ) :
    (fail t now k).1 = .ok () ∧ (fail t now k).2.get k = recorded (now :: failures) ∧
      ∀ x, x ≠ k → (fail t now k).2.get x = t.get x := by
  have hold : (((t.get k).getD {}).fails, ((t.get k).getD {}).locked_until) =
      (failures.length, (lock_end failures).getD 0) := by
    rw [h, recorded]
    split
    · rename_i hnil
      rw [hnil]
      rfl
    · rfl
  obtain ⟨hfails, huntil⟩ := Prod.mk.inj hold
  unfold fail
  dsimp only
  rw [Table.get_upsert_self, Option.getD_some]
  dsimp only
  rw [hfails, delay_ok (by omega), recorded_cons]
  dsimp only
  split
  · rename_i hfew
    rw [if_neg (lt_irrefl 0), Table.get_upsert_self, hfails, huntil, lock_end, if_neg (by omega)]
    exact ⟨rfl, rfl, fun x hx => Table.get_upsert_of_ne _ _ _ _ _ hx⟩
  · have hpos : (0 : ℚ) < min (2 ^ (failures.length + 1 - 5)) 900 := by positivity
    rw [if_pos hpos, Table.get_upsert_self, Table.get_upsert_self, Option.getD_some, hfails]
    refine ⟨rfl, rfl, fun x hx => ?_⟩
    rw [Table.get_upsert_of_ne _ _ _ _ _ hx, Table.get_upsert_of_ne _ _ _ _ _ hx]

/-- What a failure does to a table that holds the failures remembered. -/
theorem failure_spec {g : K → List ℚ} (hg : ∀ x, t.get x = recorded (g x)) (hlt : (g k).length < 1028)
    (now : ℚ) {left : Table K Attempts} (hleft : left = bound (fail t now k).2 now) :
    (fail t now k).1 = .ok () ∧ (∀ x, left.get x = recorded (remembered left (failed g k now) x)) ∧
      left.size ≤ THROTTLE_KEYS ∧ Fair (failed g k now) (remembered left (failed g k now)) now ∧
      Sparing (failed g k now) (remembered left (failed g k now)) now := by
  obtain ⟨hok, hself, hother⟩ := fail_spec (hg k) hlt now
  have hall (x : K) : (fail t now k).2.get x = recorded (failed g k now x) := by
    unfold failed
    rcases eq_or_ne x k with rfl | hne
    · rw [hself, Function.update_self]
    · rw [hother x hne, hg, Function.update_of_ne hne]
  have hbounded (z : K) (st : Attempts) (h : (bound (fail t now k).2 now).get z = some st) :
      (fail t now k).2.get z = some st := by
    rw [Table.get_eq_some] at h ⊢
    exact mem_bound h
  -- a key that is forgotten has an entry before the table is bounded, and none after
  have hgone (x : K) (hx : failed g k now x ≠ []) (h : remembered (bound (fail t now k).2 now) (failed g k now) x = [])
      (st : Attempts) : (x, st) ∉ (bound (fail t now k).2 now).entries := fun hin => by
    rw [remembered, (Table.get_eq_some _ _).mpr hin, Option.isSome_some, if_pos rfl] at h
    exact hx h
  have hheld (x : K) (ends : ℚ) (hx : lock_end (failed g k now x) = some ends) :
      (x, ⟨(failed g k now x).length, ends⟩) ∈ (fail t now k).2.entries ∧ 5 ≤ (failed g k now x).length := by
    obtain ⟨hrec, hfive⟩ := recorded_locked.mpr ⟨hx, rfl⟩
    exact ⟨(Table.get_eq_some _ _).mp ((hall x).trans hrec), hfive⟩
  have hlater {ends : ℚ} (hall' : ∀ e ∈ (bound (fail t now k).2 now).entries, 5 ≤ e.2.fails ∧ ends ≤ e.2.locked_until)
      (y : K) (hy : ((bound (fail t now k).2 now).get y).isSome) :
      ∃ later, lock_end (remembered (bound (fail t now k).2 now) (failed g k now) y) = some later ∧ ends ≤ later := by
    obtain ⟨other, hother⟩ := Option.isSome_iff_exists.mp hy
    obtain ⟨hlocked, hle⟩ := hall' _ ((Table.get_eq_some _ _).mp hother)
    rw [remembered, if_pos hy]
    exact ⟨_, (recorded_locked.mp ⟨(hall y).symm.trans (hbounded y other hother), hlocked⟩).1, hle⟩
  have hnonempty {x : K} {ends : ℚ} (hx : lock_end (failed g k now x) = some ends) : failed g k now x ≠ [] := by
    rintro hnil
    rw [hnil] at hx
    exact absurd hx nofun
  subst hleft
  refine ⟨hok, fun x => ?_, size_bound _ _, fun x ends hx hon hx' y hy => ?_, fun x hx hx' => ?_⟩
  · unfold remembered
    cases h : (bound (fail t now k).2 now).get x with
    | none => rfl
    | some st =>
      rw [Option.isSome_some, if_pos rfl, ← hall]
      exact (hbounded x st h).symm
  · obtain ⟨hd, hfive⟩ := hheld x ends hx
    refine hlater ((bound_sparing hd (hgone x (hnonempty hx) hx' _)).2 hfive (by linarith)).2 y ?_
    by_contra hno
    exact hy (if_neg hno)
  · obtain ⟨st, hst⟩ := Option.isSome_iff_exists.mp (recorded_some.mpr hx)
    have hd : (x, st) ∈ (fail t now k).2.entries := (Table.get_eq_some _ _).mp ((hall x).trans hst)
    obtain ⟨keys, hcard, hkeys⟩ := (fail t now k).2.exists_keys
    refine ⟨⟨keys, hcard ▸ (bound_sparing hd (hgone x hx hx' st)).1, fun y hy => ?_⟩, fun ends hends hlately => ?_⟩
    · exact recorded_some.mp (hall y ▸ (hkeys y).mp hy)
    · obtain ⟨hd, hfive⟩ := hheld x ends hends
      obtain ⟨hsize, hlocks⟩ := (bound_sparing hd (hgone x hx hx' _)).2 hfive hlately
      obtain ⟨keys, hcard, hkeys⟩ := (bound (fail t now k).2 now).exists_keys
      exact ⟨keys, hcard.trans hsize, fun y hy => hlater hlocks y ((hkeys y).mp hy)⟩

theorem erased_spec {g : K → List ℚ} (hg : ∀ x, t.get x = recorded (g x)) (k : K) (x : K) :
    (t.erase k).get x = recorded (Function.update g k [] x) := by
  rcases eq_or_ne x k with rfl | hne
  · rw [Table.get_erase_self, Function.update_self]
    rfl
  · rw [Table.get_erase_of_ne _ _ _ hne, Function.update_of_ne hne, hg]

end

/-! A throttle over a run, with the failures of each key since its last success or since it was last forgotten. -/

inductive Event (U I : Type) where
  | failure (username : U) (source_ip : I) (now : ℚ)
  | success (username : U) (source_ip : I)
  deriving DecidableEq

structure Watch (U I : Type) where
  throttle : LoginThrottle U I := {}
  user : U → List ℚ := fun _ => []
  ip : I → List ℚ := fun _ => []

variable {U I : Type} [DecidableEq U] [DecidableEq I]

def Watch.step (w : Watch U I) : Event U I → Watch U I
  | .failure username source_ip now =>
    let s := (w.throttle.record_failure username source_ip now).2
    { throttle := s
      user := remembered s.by_user (failed w.user username now)
      ip := remembered s.by_ip (failed w.ip source_ip now) }
  | .success username source_ip =>
    { throttle := w.throttle.record_success username source_ip
      user := Function.update w.user username []
      ip := Function.update w.ip source_ip [] }

/-- No count leaves what a float's exponent holds. -/
def Watch.Counts (w : Watch U I) : Event U I → Prop
  | .failure username source_ip _ => (w.user username).length < 1028 ∧ (w.ip source_ip).length < 1028
  | .success .. => True

instance (w : Watch U I) : ∀ e, Decidable (w.Counts e)
  | .failure username source_ip _ =>
    inferInstanceAs (Decidable ((w.user username).length < 1028 ∧ (w.ip source_ip).length < 1028))
  | .success .. => .isTrue trivial

/-- The tables hold the failures remembered, and no more keys than they may. -/
structure Watch.Faithful (w : Watch U I) : Prop where
  user : ∀ u, w.throttle.by_user.get u = recorded (w.user u)
  ip : ∀ i, w.throttle.by_ip.get i = recorded (w.ip i)
  users : w.throttle.by_user.size ≤ THROTTLE_KEYS
  ips : w.throttle.by_ip.size ≤ THROTTLE_KEYS

/-- What the throttle owes whoever watches it. -/
structure Watch.Unyielding (w : Watch U I) : Prop where
  raises_nothing : ∀ u i now, w.Counts (.failure u i now) → (w.throttle.record_failure u i now).1 = .ok ()
  users : w.throttle.by_user.size ≤ THROTTLE_KEYS
  ips : w.throttle.by_ip.size ≤ THROTTLE_KEYS
  user_locked : ∀ u ends, lock_end (w.user u) = some ends → ∀ i now, ends - now ≤ w.throttle.locked_for u i now
  ip_locked : ∀ i ends, lock_end (w.ip i) = some ends → ∀ u now, ends - now ≤ w.throttle.locked_for u i now
  unlocked : ∀ u i now, 0 ≤ now → w.throttle.locked_for u i now =
    max 0 (max ((lock_end (w.user u)).getD now - now) ((lock_end (w.ip i)).getD now - now))
  user_fair : ∀ u i now, w.Counts (.failure u i now) →
    Fair (failed w.user u now) (w.step (.failure u i now)).user now
  ip_fair : ∀ u i now, w.Counts (.failure u i now) →
    Fair (failed w.ip i now) (w.step (.failure u i now)).ip now
  user_sparing : ∀ u i now, w.Counts (.failure u i now) →
    Sparing (failed w.user u now) (w.step (.failure u i now)).user now
  ip_sparing : ∀ u i now, w.Counts (.failure u i now) →
    Sparing (failed w.ip i now) (w.step (.failure u i now)).ip now

theorem faithful_start : ({} : Watch U I).Faithful where
  user _ := rfl
  ip _ := rfl
  users := Nat.zero_le _
  ips := Nat.zero_le _

variable {w : Watch U I}

theorem Watch.Faithful.failure (h : w.Faithful) {u : U} {i : I} {now : ℚ} (hc : w.Counts (.failure u i now)) :
    (w.throttle.record_failure u i now).1 = .ok () ∧ (w.step (.failure u i now)).Faithful ∧
      (Fair (failed w.user u now) (w.step (.failure u i now)).user now ∧
        Sparing (failed w.user u now) (w.step (.failure u i now)).user now) ∧
      Fair (failed w.ip i now) (w.step (.failure u i now)).ip now ∧
      Sparing (failed w.ip i now) (w.step (.failure u i now)).ip now := by
  obtain ⟨hok, huser, husers, hufair⟩ := failure_spec h.user hc.1 now rfl
  obtain ⟨hok', hip, hips, hifair⟩ := failure_spec h.ip hc.2 now rfl
  have hrun : w.throttle.record_failure u i now =
      (.ok (), ⟨bound (fail w.throttle.by_user now u).2 now, bound (fail w.throttle.by_ip now i).2 now⟩) := by
    rw [LoginThrottle.record_failure, ← Prod.mk.eta (p := fail w.throttle.by_user now u), hok]
    dsimp only
    rw [← Prod.mk.eta (p := fail w.throttle.by_ip now i), hok']
  simp only [Watch.step, hrun]
  exact ⟨trivial, ⟨huser, hip, husers, hips⟩, hufair, hifair⟩

theorem Watch.Faithful.step (h : w.Faithful) (e : Event U I) (hc : w.Counts e) : (w.step e).Faithful := by
  cases e with
  | failure u i now => exact (h.failure hc).2.1
  | success u i =>
    exact ⟨erased_spec h.user u, erased_spec h.ip i, (Table.size_erase _ _).trans h.users,
      (Table.size_erase _ _).trans h.ips⟩

/-- What an entry adds to the wait -/
def lapse (state : Option Attempts) (now : ℚ) : ℚ := (state.map fun st => st.locked_until - now).getD 0

theorem locked_for_eq (s : LoginThrottle U I) (u : U) (i : I) (now : ℚ) :
    s.locked_for u i now = max 0 (max (lapse (s.by_user.get u) now) (lapse (s.by_ip.get i) now)) := by
  unfold LoginThrottle.locked_for lapse
  cases s.by_user.get u with
  | none => cases s.by_ip.get i with
    | none => rfl
    | some st => exact congrArg (max 0) rfl
  | some st => cases s.by_ip.get i with
    | none => exact congrArg (max 0) (max_comm _ _)
    | some other =>
      refine (congrArg (max 0) (max_assoc _ _ _)).trans ?_
      exact sup_left_idem 0 (max (st.locked_until - now) (other.locked_until - now))

theorem lapse_locked {ends : ℚ} (h : lock_end failures = some ends) (now : ℚ) :
    lapse (recorded failures) now = ends - now := by
  rw [(recorded_locked.mpr ⟨h, rfl⟩).1]
  rfl

theorem lapse_recorded (failures : List ℚ) {now : ℚ} (hnow : 0 ≤ now) :
    max 0 (lapse (recorded failures) now) = max 0 ((lock_end failures).getD now - now) := by
  cases h : lock_end failures with
  | some ends => rw [lapse_locked h, Option.getD_some]
  | none =>
    rw [Option.getD_none, sub_self, max_self]
    refine max_eq_left ?_
    unfold recorded
    split
    · exact le_refl 0
    · rw [h]
      exact (zero_sub now).trans_le (neg_nonpos.mpr hnow)

theorem Watch.Faithful.unyielding (h : w.Faithful) : w.Unyielding where
  raises_nothing _ _ _ hc := (h.failure hc).1
  users := h.users
  ips := h.ips
  user_locked u ends hends i now := by
    rw [locked_for_eq, h.user, lapse_locked hends]
    exact (le_max_left _ _).trans (le_max_right _ _)
  ip_locked i ends hends u now := by
    rw [locked_for_eq, h.ip, lapse_locked hends]
    exact (le_max_right _ _).trans (le_max_right _ _)
  unlocked u i now hnow := by
    have hsplit (a b : ℚ) : max 0 (max a b) = max (max 0 a) (max 0 b) := sup_sup_distrib_left 0 a b
    rw [locked_for_eq, hsplit, hsplit, h.user, h.ip, lapse_recorded _ hnow, lapse_recorded _ hnow]
  user_fair _ _ _ hc := (h.failure hc).2.2.1.1
  ip_fair _ _ _ hc := (h.failure hc).2.2.2.1
  user_sparing _ _ _ hc := (h.failure hc).2.2.1.2
  ip_sparing _ _ _ hc := (h.failure hc).2.2.2.2

/-- After any failures and successes, no count having left what a float's exponent holds, a failure raises nothing;
each key that failed five times or more since its last success, or since it was last forgotten, is locked for as
long as its backoff; the tables are bounded; a key is forgotten only where a table is full; and a lock that is on is
never forgotten while one that ends sooner stays. -/
theorem throttle_unyielding (es : List (Event U I)) (h : Meets Watch.step Watch.Counts {} es) :
    (run Watch.step {} es).Unyielding :=
  (run_invariant (I := Watch.Faithful) (fun _ e hw hc => hw.step e hc) _ es faithful_start h).unyielding

theorem throttle_unyielding_guessed :
    (run Watch.step {} (List.replicate 7 (.failure "admin" "10.0.0.9" 100))).Unyielding :=
  throttle_unyielding _ (by decide +kernel)

theorem fail_fresh {K : Type} [DecidableEq K] {t : Table K Attempts} {k : K} (h : t.get k = none) (now : ℚ) :
    (fail t now k).1 = .ok () ∧ (fail t now k).2.entries = t.entries ++ [(k, ⟨1, 0⟩)] := by
  unfold fail
  dsimp only
  rw [Table.get_upsert_self, h, Option.getD_none, Option.getD_some]
  have hdelay : delay (0 + 1) = .ok 0 := rfl
  rw [hdelay]
  dsimp only
  rw [if_neg (lt_irrefl 0), Table.upsert, dif_neg ((t.get_eq_none k).mp h)]
  exact ⟨rfl, rfl⟩

/-- Keys that no two numbers share -/
def key (n : ℕ) : Str := List.replicate n (chr 'a')

theorem key_injective : Function.Injective key := fun m n h => by
  have := congrArg List.length h
  rwa [key, key, List.length_replicate, List.length_replicate] at this

def flood (n : ℕ) : List (Event Str Str) := (List.range n).map fun m => .failure (key m) (key m) 1000

def once (n : ℕ) : List (Str × Attempts) := (List.range n).map fun m => (key m, ⟨1, 0⟩)

variable {t : Table Str Attempts} {n : ℕ}

theorem once_fresh (h : t.entries = once n) : t.get (key n) = none := by
  rw [Table.get_eq_none, h, once, List.map_map]
  intro hin
  obtain ⟨m, hm, hk⟩ := List.mem_map.mp hin
  exact absurd (key_injective hk) (List.mem_range.mp hm).ne

theorem once_fail (h : t.entries = once n) :
    (fail t 1000 (key n)).1 = .ok () ∧ (fail t 1000 (key n)).2.entries = once (n + 1) := by
  obtain ⟨hok, hentries⟩ := fail_fresh (once_fresh h) 1000
  refine ⟨hok, hentries.trans ?_⟩
  rw [h, once, once, List.range_succ, List.map_append]
  rfl

theorem once_kept (hn : n ≤ THROTTLE_KEYS) (h : t.entries = once n) (now : ℚ) :
    bound t now = t := by
  refine if_pos ?_
  rwa [Table.size, h, once, List.length_map, List.length_range]

theorem once_dropped (hn : THROTTLE_KEYS < n) (h : t.entries = once n) (now : ℚ) :
    bound t now = .empty := by
  have hnone : (imposing t now).entries = [] := by
    refine List.eq_nil_iff_forall_not_mem.mpr fun e he => ?_
    obtain ⟨hin, hfive, -⟩ := mem_imposing.mp he
    rw [h] at hin
    obtain ⟨m, -, rfl⟩ := List.mem_map.mp hin
    exact absurd (show 5 ≤ 1 from hfive) (by decide)
  have hlong : ¬ t.size ≤ THROTTLE_KEYS := by
    rw [Table.size, h, once, List.length_map, List.length_range]
    exact not_le.mpr hn
  rw [bound, if_neg hlong, if_pos (by rw [Table.size, hnone]; exact Nat.zero_le _)]
  exact Table.ext hnone

theorem flood_step {w : Watch Str Str} {n : ℕ} (hu : w.throttle.by_user.entries = once n)
    (hi : w.throttle.by_ip.entries = once n) : ∃ by_user by_ip : Table Str Attempts,
      by_user.entries = once (n + 1) ∧ by_ip.entries = once (n + 1) ∧
      (w.step (.failure (key n) (key n) 1000)).throttle = ⟨bound by_user 1000, bound by_ip 1000⟩ := by
  obtain ⟨hok, huser⟩ := once_fail hu
  obtain ⟨hok', hip⟩ := once_fail hi
  refine ⟨_, _, huser, hip, ?_⟩
  rw [Watch.step, LoginThrottle.record_failure, ← Prod.mk.eta (p := fail w.throttle.by_user 1000 (key n)), hok]
  dsimp only
  rw [← Prod.mk.eta (p := fail w.throttle.by_ip 1000 (key n)), hok']

theorem flood_succ (n : ℕ) : run Watch.step {} (flood (n + 1)) =
    (run Watch.step {} (flood n)).step (.failure (key n) (key n) 1000) := by
  rw [flood, List.range_succ, List.map_append, run_append]
  rfl

theorem flood_fills : ∀ n ≤ THROTTLE_KEYS, (run Watch.step {} (flood n)).throttle.by_user.entries = once n ∧
    (run Watch.step {} (flood n)).throttle.by_ip.entries = once n
  | 0, _ => ⟨rfl, rfl⟩
  | n + 1, hn => by
    obtain ⟨hu, hi⟩ := flood_fills n (by omega)
    obtain ⟨by_user, by_ip, huser, hip, hstep⟩ := flood_step hu hi
    rw [flood_succ, hstep, once_kept hn huser, once_kept hn hip]
    exact ⟨huser, hip⟩

theorem flood_empties : (run Watch.step {} (flood (THROTTLE_KEYS + 1))).throttle = {} := by
  obtain ⟨hu, hi⟩ := flood_fills THROTTLE_KEYS le_rfl
  obtain ⟨by_user, by_ip, huser, hip, hstep⟩ := flood_step hu hi
  rw [flood_succ, hstep, once_dropped (Nat.lt_succ_self _) huser, once_dropped (Nat.lt_succ_self _) hip]

theorem throttle_run {w v : Watch U I} (h : w.throttle = v.throttle) : ∀ es : List (Event U I),
    (run Watch.step w es).throttle = (run Watch.step v es).throttle
  | [] => h
  | e :: es => by
    refine throttle_run ?_ es
    cases e with
    | failure u i now => exact congrArg (fun s => (s.record_failure u i now).2) h
    | success u i => exact congrArg (fun s => s.record_success u i) h

/-- A key that failed once before a flood of others and four times after is not locked. -/
theorem flooded_unlocked : ∃ es : List (Event Str Str), (∀ u i, .success u i ∉ es) ∧
    es.countP (· = .failure (key 0) (key 0) 1000) = 5 ∧
    (run Watch.step {} es).throttle.locked_for (key 0) (key 0) 1000 = 0 := by
  refine ⟨flood (THROTTLE_KEYS + 1) ++ List.replicate 4 (.failure (key 0) (key 0) 1000), fun u i h => ?_, ?_, ?_⟩
  · rcases List.mem_append.mp h with h | h
    · obtain ⟨m, -, hm⟩ := List.mem_map.mp h
      exact absurd hm nofun
    · exact absurd (List.eq_of_mem_replicate h) nofun
  · rw [List.countP_append, flood, List.range_succ_eq_map, List.map_cons, List.countP_cons, List.map_map]
    rw [List.countP_eq_zero.mpr]
    · decide
    · intro e he
      obtain ⟨m, -, rfl⟩ := List.mem_map.mp he
      intro heq
      have hkey := (Event.failure.inj (of_decide_eq_true heq)).1
      exact absurd (key_injective hkey) (Nat.succ_ne_zero m)
  · rw [run_append, throttle_run (v := {}) flood_empties]
    decide +kernel

end NetCoreNoc.Api.Throttle
