import Mathlib
import NetCoreNoc.Runs
import NetCoreNoc.Snmp.Admission
import NetCoreNoc.Snmp.Quarantine

/-! The clocks that the User-based Security Model remembers (`UsmState.in_window`), over any run of messages. -/
namespace NetCoreNoc.Snmp
open Runs

/-- An engine's boots and time, and when the receiver learnt them. -/
abbrev Clock := Int × Int × ℚ

/-- The engine's time that a clock gives at an instant of the receiver's -/
def reads (c : Clock) (t : ℚ) : Int := c.2.1 + truncate (t - c.2.2)

/-- The window of RFC 3414 behind a clock -/
def Timely (c : Clock) (boots engineTime : Int) (now : ℚ) : Prop :=
  c.1 < boots ∨ c.1 = boots ∧ reads c now - TIME_WINDOW_S ≤ engineTime

/-- A clock that runs ahead of another by no more than so many seconds -/
def Behind (slack : Int) (c d : Clock) (t : ℚ) : Prop := c.1 < d.1 ∨ c.1 = d.1 ∧ reads c t ≤ reads d t + slack

theorem Behind.trans {m n : Int} {b c d : Clock} {t : ℚ} (h : Behind m b c t) (h' : Behind n c d t) :
    Behind (m + n) b d t := by
  unfold Behind at *
  omega

theorem Behind.timely {c d : Clock} {boots engineTime : Int} {now : ℚ} (h : Behind 0 c d now)
    (hd : Timely d boots engineTime now) : Timely c boots engineTime now := by
  unfold Behind Timely at *
  omega

theorem truncate_of_nonneg {x : ℚ} (hx : 0 ≤ x) : truncate x = ⌊x⌋ := by
  rw [truncate, Rat.floor_def', Int.tdiv_eq_ediv_of_nonneg (Rat.num_nonneg.mpr hx)]

theorem truncate_near (x : ℚ) : 0 ≤ x ∧ (truncate x : ℚ) ≤ x ∧ x < truncate x + 1 ∨
    x < 0 ∧ x ≤ truncate x ∧ (truncate x : ℚ) < x + 1 := by
  rcases le_or_gt 0 x with hx | hx
  · rw [truncate_of_nonneg hx]
    exact .inl ⟨hx, Int.floor_le x, Int.lt_floor_add_one x⟩
  · have hneg : truncate (-x) = -truncate x := by
      rw [truncate, Rat.num_neg_eq_neg_num, Rat.den_neg_eq_den, Int.neg_tdiv, truncate]
    have h := truncate_of_nonneg (neg_nonneg.mpr hx.le)
    rw [hneg] at h
    rw [show truncate x = -⌊-x⌋ from by omega, Int.cast_neg]
    exact .inr ⟨hx, by linarith [Int.floor_le (-x)], by linarith [Int.lt_floor_add_one (-x)]⟩

theorem truncate_add (a b : ℚ) : truncate (a + b) ≤ truncate a + truncate b + 1 ∧
    truncate a + truncate b ≤ truncate (a + b) + 1 := by
  have hlt : (truncate (a + b) : ℚ) < truncate a + truncate b + 2 ∧
      (truncate a + truncate b : ℚ) < truncate (a + b) + 2 := by
    rcases truncate_near a with ⟨ha, ha', ha''⟩ | ⟨ha, ha', ha''⟩ <;>
      rcases truncate_near b with ⟨hb, hb', hb''⟩ | ⟨hb, hb', hb''⟩ <;>
        rcases truncate_near (a + b) with ⟨hc, hc', hc''⟩ | ⟨hc, hc', hc''⟩ <;> constructor <;> linarith
  obtain ⟨h, h'⟩ := hlt
  norm_cast at h h'
  omega

theorem truncate_add_of_nonneg {a b : ℚ} (ha : 0 ≤ a) (hb : 0 ≤ b) :
    truncate a + truncate b ≤ truncate (a + b) := by
  rw [truncate_of_nonneg ha, truncate_of_nonneg hb, truncate_of_nonneg (add_nonneg ha hb)]
  exact Int.le_floor_add a b

/-- A clock that a message sets forward reads no later at any instant. -/
theorem behind_learnt {c d : Clock} (h : c.1 < d.1 ∨ c.1 = d.1 ∧ reads c d.2.2 < d.2.1) (t : ℚ) : Behind 0 c d t := by
  have hadd := (truncate_add (d.2.2 - c.2.2) (t - d.2.2)).1
  rw [show d.2.2 - c.2.2 + (t - d.2.2) = t - c.2.2 from by ring] at hadd
  unfold Behind
  unfold reads at *
  omega

/-- What a clock allowed runs ahead of it by a second at most. -/
theorem behind_allowed {c d : Clock} (hboots : c.1 = d.1) (h : c.2.1 ≤ reads d c.2.2) (t : ℚ) : Behind 1 c d t := by
  have hadd := (truncate_add (c.2.2 - d.2.2) (t - c.2.2)).2
  rw [show c.2.2 - d.2.2 + (t - c.2.2) = t - d.2.2 from by ring] at hadd
  unfold Behind
  unfold reads at *
  omega

/-- It does not run ahead where the receiver's own clock has not run back. -/
theorem behind_allowed_of_le {c d : Clock} (hboots : c.1 = d.1) (h : c.2.1 ≤ reads d c.2.2) {t : ℚ}
    (hseen : d.2.2 ≤ c.2.2) (ht : c.2.2 ≤ t) : Behind 0 c d t := by
  have hadd := truncate_add_of_nonneg (sub_nonneg.mpr hseen) (sub_nonneg.mpr ht)
  rw [show c.2.2 - d.2.2 + (t - c.2.2) = t - d.2.2 from by ring] at hadd
  unfold Behind
  unfold reads at *
  omega

section
variable {κ ν : Type} [DecidableEq κ] {l : List (κ × ν)} {k x : κ} {v : ν}

section
variable [BEq κ] [LawfulBEq κ]

theorem lookup_cons_eq (x : κ) (e : κ × ν) (l : List (κ × ν)) :
    (e :: l).lookup x = if x = e.1 then some e.2 else l.lookup x := by
  rw [List.lookup_cons]
  by_cases hx : x = e.1
  · simp [hx]
  · simp [hx, beq_false_of_ne hx]

theorem lookup_moveToEnd : (moveToEnd k v l).lookup x = if x = k then some v else l.lookup x := by
  unfold moveToEnd
  induction l with
  | nil => exact lookup_cons_eq x (k, v) []
  | cons e l ih =>
    rw [List.filter_cons, lookup_cons_eq]
    by_cases hk : e.1 = k
    · rw [if_neg (by simp [hk]), ih, hk]
      split <;> rfl
    · rw [if_pos (by simp [hk]), List.cons_append, lookup_cons_eq, ih]
      by_cases hx : x = e.1
      · rw [if_pos hx, if_neg (hx.trans_ne hk), if_pos hx]
      · rw [if_neg hx, if_neg hx]

omit [DecidableEq κ] in
theorem lookup_sublist {m : List (κ × ν)} (hm : m.Sublist l) (hl : (l.map Prod.fst).Nodup)
    (h : m.lookup x = some v) : l.lookup x = some v := by
  obtain ⟨m₁, m₂, rfl, hno⟩ := List.lookup_eq_some_iff.mp h
  obtain ⟨l₁, l₂, rfl⟩ := List.append_of_mem (hm.subset (List.mem_append_right m₁ List.mem_cons_self))
  refine List.lookup_eq_some_iff.mpr ⟨l₁, l₂, rfl, fun e he => ?_⟩
  rw [List.map_append, List.map_cons] at hl
  refine bne_iff_ne.mpr fun hx => ?_
  exact (List.disjoint_of_nodup_append hl) (List.mem_map.mpr ⟨e, he, hx.symm⟩) List.mem_cons_self

end

theorem keys_moveToEnd (h : (l.map Prod.fst).Nodup) : ((moveToEnd k v l).map Prod.fst).Nodup := by
  unfold moveToEnd
  rw [List.map_append]
  refine (h.sublist (List.filter_sublist.map _)).append (List.nodup_singleton k) (List.disjoint_singleton.mpr ?_)
  intro hk
  obtain ⟨e, he, rfl⟩ := List.mem_map.mp hk
  exact of_decide_eq_true (List.mem_filter.mp he).2 rfl

theorem bounded_sublist {α : Type} (l : List α) : (bounded l).Sublist l := by
  unfold bounded
  split
  · exact List.drop_sublist 1 l
  · exact .refl l

theorem length_moveToEnd (l : List (κ × ν)) (k : κ) (v : ν) : (moveToEnd k v l).length ≤ l.length + 1 := by
  rw [moveToEnd, List.length_append]
  exact Nat.succ_le_succ (List.length_filter_le _ _)

theorem length_moveToEnd_of_mem (h : k ∈ l.map Prod.fst) : (moveToEnd k v l).length ≤ l.length := by
  obtain ⟨e, he, rfl⟩ := List.mem_map.mp h
  rw [moveToEnd, List.length_append]
  exact List.length_filter_lt_length_iff_exists.mpr ⟨e, he, by simp⟩

theorem length_bounded {α : Type} {l : List α} (h : l.length ≤ CACHE_ENTRIES + 1) :
    (bounded l).length ≤ CACHE_ENTRIES := by
  unfold bounded
  split
  · rw [List.length_drop]
    omega
  · omega

end

/-- What `in_window` does with a message that it lets in: the clock it keeps, or the one it learns. -/
theorem inWindow_cases (state : UsmState) (engineId : Bytes) (boots engineTime : Int) (now : ℚ) :
    state.inWindow engineId boots engineTime now = (false, state) ∨
    boots < MAX_BOOTS ∧ (∀ k, state.clocks.lookup engineId = some k → Timely k boots engineTime now) ∧
      ((∃ k, state.clocks.lookup engineId = some k ∧ k.1 = boots ∧ engineTime ≤ reads k now ∧
          state.inWindow engineId boots engineTime now =
            (true, { state with clocks := moveToEnd engineId k state.clocks })) ∨
        (∀ k, state.clocks.lookup engineId = some k → k.1 < boots ∨ k.1 = boots ∧ reads k now < engineTime) ∧
          state.inWindow engineId boots engineTime now =
            (true, { state with clocks := bounded (moveToEnd engineId (boots, engineTime, now) state.clocks) })) := by
  unfold UsmState.inWindow
  dsimp only
  split
  · exact .inl rfl
  · rename_i hmax
    cases hk : state.clocks.lookup engineId with
    | none => exact .inr ⟨by omega, nofun, .inr ⟨nofun, rfl⟩⟩
    | some k =>
      obtain ⟨knownBoots, knownTime, seenAt⟩ := k
      dsimp only
      split
      · exact .inl rfl
      · rename_i hbehind
        have htimely : Timely (knownBoots, knownTime, seenAt) boots engineTime now := by
          unfold Timely reads
          dsimp only
          omega
        refine .inr ⟨by omega, fun k h => Option.some.inj h ▸ htimely, ?_⟩
        split
        · rename_i hold
          exact .inl ⟨_, rfl, hold.1.symm, hold.2, rfl⟩
        · rename_i hnew
          refine .inr ⟨fun k h => ?_, rfl⟩
          obtain rfl := Option.some.inj h
          change knownBoots < boots ∨ knownBoots = boots ∧ knownTime + truncate (now - seenAt) < engineTime
          omega

theorem inWindow_congr {state other : UsmState} (h : state.clocks = other.clocks) (engineId : Bytes)
    (boots engineTime : Int) (now : ℚ) :
    (state.inWindow engineId boots engineTime now).1 = (other.inWindow engineId boots engineTime now).1 ∧
      (state.inWindow engineId boots engineTime now).2.clocks =
        (other.inWindow engineId boots engineTime now).2.clocks := by
  unfold UsmState.inWindow
  dsimp only
  rw [h]
  split
  · exact ⟨rfl, h⟩
  · cases other.clocks.lookup engineId with
    | none => exact ⟨rfl, rfl⟩
    | some k =>
      dsimp only
      split
      · exact ⟨rfl, h⟩
      · split <;> exact ⟨rfl, rfl⟩

theorem keysFor_clocks (P : Platform) (state : UsmState) (user : UsmUser) (engineId : Bytes) :
    (state.keysFor P user engineId).2.clocks = state.clocks := by
  unfold UsmState.keysFor
  dsimp only
  split <;> rfl

section
variable (P : Platform)

/-- The header of a message whose MAC its user's key gives and whose clock is in its policy's window. -/
def admitted (data : Bytes) (policy : SnmpPolicy) (state : UsmState) (now : ℚ) : Option Header :=
  match parseHeader data with
  | .error _ => none
  | .ok header =>
    match userOf policy header with
    | .error _ => none
    | .ok user =>
      if user.auth.any (verified P data header · (state.keysFor P user header.engine_id).1.1) ∧
          policy.time_window ∧ (state.inWindow header.engine_id header.boots header.engine_time now).1 then
        some header
      else none

theorem authenticate_clocks (data : Bytes) (policy : SnmpPolicy) (state : UsmState) (now : ℚ) (header : Header)
    (user : UsmUser) :
    (authenticate P data policy (state.keysFor P user header.engine_id).2 now header user
      (state.keysFor P user header.engine_id).1.1).2.clocks =
    if user.auth.any (verified P data header · (state.keysFor P user header.engine_id).1.1) ∧
        policy.time_window ∧ (state.inWindow header.engine_id header.boots header.engine_time now).1 then
      (state.inWindow header.engine_id header.boots header.engine_time now).2.clocks
    else state.clocks := by
  have hkeys := keysFor_clocks P state user header.engine_id
  obtain ⟨hin, hclocks⟩ := inWindow_congr hkeys header.engine_id header.boots header.engine_time now
  unfold authenticate
  cases user.auth with
  | none => exact hkeys.trans (if_neg fun h => Bool.false_ne_true h.1).symm
  | some auth =>
    dsimp only
    rw [Option.any_some]
    by_cases hv : verified P data header auth (state.keysFor P user header.engine_id).1.1
    · by_cases hw : policy.time_window
      · rw [if_pos hv, if_pos hw]
        dsimp only
        rw [hclocks]
        by_cases hfresh : (state.inWindow header.engine_id header.boots header.engine_time now).1
        · rw [if_pos ⟨hv, hw, hfresh⟩]
        · rw [if_neg fun h => hfresh h.2.2]
          rcases inWindow_cases state header.engine_id header.boots header.engine_time now with h | ⟨-, -, h⟩
          · rw [h]
          · rcases h with ⟨_, -, -, -, h⟩ | ⟨-, h⟩ <;> exact absurd (congrArg Prod.fst h) hfresh
      · rw [if_pos hv, if_neg hw, if_neg fun h => hw h.2.1]
        exact hkeys
    · rw [if_neg hv, if_neg fun h => hv h.1]
      exact hkeys

variable {P} {data : Bytes} {policy : SnmpPolicy} {state : UsmState} {now : ℚ} {header : Header}

/-- Nothing after the MAC and the clock changes what is remembered. -/
theorem process_settled {user : UsmUser} (hh : parseHeader data = .ok header)
    (hu : userOf policy header = .ok user) : (process P data policy state now).2 =
      (authenticate P data policy (state.keysFor P user header.engine_id).2 now header user
        (state.keysFor P user header.engine_id).1.1).2 := by
  unfold process
  simp only [hh, hu]
  split
  · rename_i hauth
    rw [hauth]
  · rename_i hauth
    rw [hauth]
    split
    · rfl
    · split <;> rfl

theorem process_clocks : (process P data policy state now).2.clocks =
    match admitted P data policy state now with
    | some header => (state.inWindow header.engine_id header.boots header.engine_time now).2.clocks
    | none => state.clocks := by
  cases hh : parseHeader data with
  | error reason => simp only [process, admitted, hh]
  | ok header =>
    cases hu : userOf policy header with
    | error reason => simp only [process, admitted, hh, hu]
    | ok user =>
      rw [process_settled hh hu, authenticate_clocks]
      simp only [admitted, hh, hu]
      split <;> rfl

theorem admitted_window (h : admitted P data policy state now = some header) :
    parseHeader data = .ok header ∧ policy.time_window = true ∧
      (state.inWindow header.engine_id header.boots header.engine_time now).1 = true := by
  unfold admitted at h
  cases hh : parseHeader data with
  | error reason => exact absurd (hh ▸ h) nofun
  | ok parsed =>
    simp only [hh] at h
    cases hu : userOf policy parsed with
    | error reason => exact absurd (hu ▸ h) nofun
    | ok user =>
      simp only [hu] at h
      split at h
      · rename_i hin
        obtain rfl := Option.some.inj h
        exact ⟨rfl, hin.2⟩
      · exact absurd h nofun

theorem admitted_of_accepted {pdu : Pdu} {user : UsmUser} (h : (process P data policy state now).1 = .ok (pdu, user))
    (hauth : user.auth.isSome) (hwindow : policy.time_window = true) :
    ∃ header, parseHeader data = .ok header ∧ admitted P data policy state now = some header := by
  obtain ⟨header, hh, hu, hok⟩ := process_ok h
  refine ⟨header, hh, ?_⟩
  obtain ⟨auth, ha⟩ := Option.isSome_iff_exists.mp hauth
  have hverified := authenticate_ok hok auth ha
  unfold authenticate at hok
  simp only [ha, hverified, if_true, hwindow] at hok
  have hfresh : (state.inWindow header.engine_id header.boots header.engine_time now).1 = true := by
    rw [← (inWindow_congr (keysFor_clocks P state user header.engine_id) _ _ _ _).1]
    by_contra hno
    rw [if_neg hno] at hok
    exact absurd hok nofun
  simp only [admitted, hh, hu]
  exact if_pos ⟨by rw [ha]; exact hverified, hwindow, hfresh⟩

end

/-- A message as it reaches the receiver, which may have swapped its policy since the last. -/
structure Arrival where
  data : Bytes
  policy : SnmpPolicy
  now : ℚ

/-- The receiver's state, and the clocks let in from each engine since it last began to remember the engine. -/
structure Listener where
  state : UsmState := {}
  heard : Bytes → List Clock := fun _ => []

variable (P : Platform)

def Listener.hear (l : Listener) (a : Arrival) : Listener :=
  let state := (process P a.data a.policy l.state a.now).2
  { state
    heard := match admitted P a.data a.policy l.state a.now with
      | some header => fun e =>
        if (state.clocks.lookup e).isSome then
          Function.update l.heard header.engine_id
            ((header.boots, header.engine_time, a.now) :: l.heard header.engine_id) e
        else []
      | none => l.heard }

/-- A clock let in, against the one remembered before it and the one remembered after. -/
def LetIn (before : Option Clock) (c after : Clock) : Prop :=
  before = some after ∧ c.1 = after.1 ∧ c.2.1 ≤ reads after c.2.2 ∨
    after = c ∧ ∀ old, before = some old → old.1 < c.1 ∨ old.1 = c.1 ∧ reads old c.2.2 < c.2.1

variable {P} {l : Listener}

/-- What a message that is let in does to what is remembered -/
structure Listener.Heard (P : Platform) (l : Listener) (a : Arrival) (header : Header) : Prop where
  nodup : ((l.hear P a).state.clocks.map Prod.fst).Nodup
  bounded : (l.hear P a).state.clocks.length ≤ CACHE_ENTRIES
  forgotten : ∀ e, (l.hear P a).state.clocks.lookup e = none → (l.hear P a).heard e = []
  others : ∀ e, e ≠ header.engine_id → ∀ k, (l.hear P a).state.clocks.lookup e = some k →
    l.state.clocks.lookup e = some k ∧ (l.hear P a).heard e = l.heard e
  itself : ∀ k, (l.hear P a).state.clocks.lookup header.engine_id = some k →
    (l.hear P a).heard header.engine_id = (header.boots, header.engine_time, a.now) :: l.heard header.engine_id ∧
      LetIn (l.state.clocks.lookup header.engine_id) (header.boots, header.engine_time, a.now) k

theorem hear_admitted (hnodup : (l.state.clocks.map Prod.fst).Nodup) (hlen : l.state.clocks.length ≤ CACHE_ENTRIES)
    {a : Arrival} (h : admitted P a.data a.policy l.state a.now = some header) :
    l.Heard P a header := by
  have hclocks : (l.hear P a).state.clocks =
      (l.state.inWindow header.engine_id header.boots header.engine_time a.now).2.clocks := by
    refine process_clocks.trans ?_
    rw [h]
  have hheard (e : Bytes) : (l.hear P a).heard e = if ((l.hear P a).state.clocks.lookup e).isSome then
      Function.update l.heard header.engine_id
        ((header.boots, header.engine_time, a.now) :: l.heard header.engine_id) e else [] := by
    change (match admitted P a.data a.policy l.state a.now with
      | some header => _
      | none => _ : Bytes → List Clock) e = _
    rw [h]
    rfl
  have hfresh := (admitted_window h).2.2
  have hforgotten (e : Bytes) (he : (l.hear P a).state.clocks.lookup e = none) : (l.hear P a).heard e = [] := by
    rw [hheard, he]
    rfl
  have hkept (e : Bytes) (k : Clock) (he : (l.hear P a).state.clocks.lookup e = some k) : (l.hear P a).heard e =
      Function.update l.heard header.engine_id
        ((header.boots, header.engine_time, a.now) :: l.heard header.engine_id) e := by
    rw [hheard, he]
    rfl
  rcases inWindow_cases l.state header.engine_id header.boots header.engine_time a.now with hno | ⟨-, -, hyes⟩
  · exact absurd ((congrArg Prod.fst hno).symm.trans hfresh) Bool.false_ne_true
  · rcases hyes with ⟨k, hk, hboots, htime, hin⟩ | ⟨hahead, hin⟩
    · rw [hin] at hclocks
      have hlookup (e : Bytes) : (l.hear P a).state.clocks.lookup e = l.state.clocks.lookup e := by
        rw [hclocks]
        refine lookup_moveToEnd.trans ?_
        split
        · rename_i he
          rw [he, hk]
        · rfl
      refine ⟨?_, ?_, hforgotten, fun e he v hv => ⟨(hlookup e) ▸ hv, ?_⟩, fun v hv => ⟨?_, .inl ⟨?_, ?_⟩⟩⟩
      · rw [hclocks]
        exact keys_moveToEnd hnodup
      · rw [hclocks]
        obtain ⟨m₁, m₂, hsplit, -⟩ := List.lookup_eq_some_iff.mp hk
        have hin : (header.engine_id, k) ∈ l.state.clocks := hsplit ▸ List.mem_append_right m₁ List.mem_cons_self
        exact (length_moveToEnd_of_mem (List.mem_map.mpr ⟨_, hin, rfl⟩)).trans hlen
      · rw [hkept e v hv, Function.update_of_ne he]
      · rw [hkept _ v hv, Function.update_self]
      · exact (hlookup _).symm.trans hv
      · rw [hlookup, hk] at hv
        obtain rfl := Option.some.inj hv
        exact ⟨hboots.symm, htime⟩
    · rw [hin] at hclocks
      have hsub := bounded_sublist
        (moveToEnd header.engine_id (header.boots, header.engine_time, a.now) l.state.clocks)
      have hkeys := keys_moveToEnd (k := header.engine_id) (v := (header.boots, header.engine_time, a.now)) hnodup
      have hlookup (e : Bytes) (v : Clock) (hv : (l.hear P a).state.clocks.lookup e = some v) :
          (if e = header.engine_id then some (header.boots, header.engine_time, a.now)
            else l.state.clocks.lookup e) = some v := by
        rw [hclocks] at hv
        exact lookup_moveToEnd.symm.trans (lookup_sublist hsub hkeys hv)
      refine ⟨?_, ?_, hforgotten, fun e he v hv => ⟨?_, ?_⟩, fun v hv => ⟨?_, .inr ⟨?_, hahead⟩⟩⟩
      · rw [hclocks]
        exact hkeys.sublist (hsub.map Prod.fst)
      · rw [hclocks]
        exact length_bounded ((length_moveToEnd _ _ _).trans (Nat.succ_le_succ hlen))
      · exact (if_neg he).symm.trans (hlookup e v hv)
      · rw [hkept e v hv, Function.update_of_ne he]
      · rw [hkept _ v hv, Function.update_self]
      · exact (Option.some.inj ((if_pos rfl).symm.trans (hlookup _ v hv))).symm

theorem hear_ignored {a : Arrival} (h : admitted P a.data a.policy l.state a.now = none) :
    (l.hear P a).state.clocks = l.state.clocks ∧ (l.hear P a).heard = l.heard := by
  constructor
  · refine process_clocks.trans ?_
    rw [h]
  · unfold Listener.hear
    rw [h]

/-- What is remembered of every engine is a clock let in from it, which none let in since runs ahead of by more than
a second. -/
structure Listener.Tracks (l : Listener) : Prop where
  nodup : (l.state.clocks.map Prod.fst).Nodup
  bounded : l.state.clocks.length ≤ CACHE_ENTRIES
  forgotten : ∀ e, l.state.clocks.lookup e = none → l.heard e = []
  highest : ∀ e k, l.state.clocks.lookup e = some k → k ∈ l.heard e ∧ ∀ c ∈ l.heard e, ∀ t, Behind 1 c k t

theorem Behind.refl (c : Clock) (t : ℚ) : Behind 0 c c t := .inr ⟨rfl, by omega⟩

/-- The clock remembered only moves forward. -/
theorem admits_forward {before : Option Clock} {c after old : Clock} (h : LetIn before c after)
    (hold : before = some old) (t : ℚ) : Behind 0 old after t := by
  rcases h with ⟨hsame, -⟩ | ⟨rfl, hahead⟩
  · obtain rfl := Option.some.inj (hold.symm.trans hsame)
    exact .refl old t
  · exact behind_learnt (hahead old hold) t

theorem tracks_start : ({} : Listener).Tracks where
  nodup := List.nodup_nil
  bounded := Nat.zero_le _
  forgotten _ _ := rfl
  highest _ _ h := absurd h nofun

theorem Listener.Tracks.hear (h : l.Tracks) (a : Arrival) : (l.hear P a).Tracks := by
  cases hadm : admitted P a.data a.policy l.state a.now with
  | none =>
    obtain ⟨hclocks, hheard⟩ := hear_ignored hadm
    constructor <;> rw [hclocks]
    · exact h.nodup
    · exact h.bounded
    · rw [hheard]
      exact h.forgotten
    · rw [hheard]
      exact h.highest
  | some header =>
    have hear := hear_admitted h.nodup h.bounded hadm
    refine ⟨hear.nodup, hear.bounded, hear.forgotten, fun e k hk => ?_⟩
    rcases eq_or_ne e header.engine_id with rfl | hne
    · obtain ⟨hheard, hadmits⟩ := hear.itself k hk
      rw [hheard]
      cases hbefore : l.state.clocks.lookup header.engine_id with
      | none =>
        rw [hbefore] at hadmits
        rw [h.forgotten _ hbefore]
        rcases hadmits with ⟨hsame, -⟩ | ⟨rfl, -⟩
        · exact absurd hsame nofun
        · refine ⟨List.mem_cons_self, fun c hc t => ?_⟩
          obtain rfl := List.mem_singleton.mp hc
          exact .inr ⟨rfl, by omega⟩
      | some old =>
        obtain ⟨hin, hall⟩ := h.highest _ old hbefore
        have hforward := admits_forward hadmits hbefore
        refine ⟨?_, fun c hc t => ?_⟩
        · rcases hadmits with ⟨hsame, -⟩ | ⟨rfl, -⟩
          · exact List.mem_cons_of_mem _ (Option.some.inj (hbefore.symm.trans hsame) ▸ hin)
          · exact List.mem_cons_self
        · rcases List.mem_cons.mp hc with rfl | hc
          · rcases hadmits with ⟨-, hboots, hle⟩ | ⟨rfl, -⟩
            · exact behind_allowed hboots hle t
            · exact .inr ⟨rfl, by omega⟩
          · exact (hall c hc t).trans (hforward t)
    · obtain ⟨hbefore, hheard⟩ := hear.others e hne k hk
      rw [hheard]
      exact h.highest e k hbefore

/-- No clock let in so far was seen later than an instant, nor runs ahead of the one remembered from then on. -/
structure Listener.Tight (l : Listener) (latest : ℚ) : Prop where
  seen : ∀ e, ∀ c ∈ l.heard e, c.2.2 ≤ latest
  behind : ∀ e k, l.state.clocks.lookup e = some k → ∀ c ∈ l.heard e, ∀ t, latest ≤ t → Behind 0 c k t

theorem Listener.Tight.hear {latest : ℚ} (h : l.Tight latest) (ht : l.Tracks) {a : Arrival} (hle : latest ≤ a.now) :
    (l.hear P a).Tight a.now := by
  cases hadm : admitted P a.data a.policy l.state a.now with
  | none =>
    obtain ⟨hclocks, hheard⟩ := hear_ignored hadm
    constructor <;> rw [hheard]
    · exact fun e c hc => (h.seen e c hc).trans hle
    · rw [hclocks]
      exact fun e k hk c hc t hn => h.behind e k hk c hc t (hle.trans hn)
  | some header =>
    have hear := hear_admitted ht.nodup ht.bounded hadm
    refine ⟨fun e c hc => ?_, fun e k hk c hc t hn => ?_⟩
    · cases hk : (l.hear P a).state.clocks.lookup e with
      | none =>
        rw [hear.forgotten e hk] at hc
        exact absurd hc List.not_mem_nil
      | some k =>
        rcases eq_or_ne e header.engine_id with rfl | hne
        · rw [(hear.itself k hk).1] at hc
          rcases List.mem_cons.mp hc with rfl | hc
          · exact le_rfl
          · exact (h.seen _ c hc).trans hle
        · rw [(hear.others e hne k hk).2] at hc
          exact (h.seen e c hc).trans hle
    · rcases eq_or_ne e header.engine_id with rfl | hne
      · obtain ⟨hheard, hadmits⟩ := hear.itself k hk
        rw [hheard] at hc
        rcases List.mem_cons.mp hc with rfl | hc
        · rcases hadmits with ⟨hbefore, hboots, hallowed⟩ | ⟨rfl, -⟩
          · have hseen := h.seen _ k (ht.highest _ k hbefore).1
            exact behind_allowed_of_le hboots hallowed (hseen.trans hle) hn
          · exact .refl _ t
        · cases hbefore : l.state.clocks.lookup header.engine_id with
          | none => exact absurd (ht.forgotten _ hbefore ▸ hc) List.not_mem_nil
          | some old =>
            exact (h.behind _ old hbefore c hc t (hle.trans hn)).trans (admits_forward hadmits hbefore t)
      · obtain ⟨hbefore, hheard⟩ := hear.others e hne k hk
        exact h.behind e k hbefore c (hheard ▸ hc) t (hle.trans hn)

theorem tight_run (P : Platform) : ∀ (as : List Arrival) (l : Listener) (latest : ℚ), l.Tracks → l.Tight latest →
    (as.map Arrival.now).Pairwise (· ≤ ·) → (∀ a ∈ as, latest ≤ a.now) → ∀ t, latest ≤ t → (∀ a ∈ as, a.now ≤ t) →
      (run (Listener.hear P) l as).Tight t
  | [], _, _, _, h, _, _, _, ht, _ =>
    ⟨fun e c hc => (h.seen e c hc).trans ht, fun e k hk c hc t' ht' => h.behind e k hk c hc t' (ht.trans ht')⟩
  | a :: as, l, latest, htracks, h, hp, hle, t, _, hall => by
    rw [List.map_cons, List.pairwise_cons] at hp
    have hnext : ∀ b ∈ as, a.now ≤ b.now := fun b hb => hp.1 _ (List.mem_map_of_mem hb)
    exact tight_run P as _ a.now (htracks.hear a) (h.hear htracks (hle a List.mem_cons_self)) hp.2 hnext t
      (hall a List.mem_cons_self) fun b hb => hall b (List.mem_cons_of_mem a hb)

/-- An authenticated message that is accepted under a policy with a time window -/
def Accepts (P : Platform) (state : UsmState) (a : Arrival) (header : Header) : Prop :=
  parseHeader a.data = .ok header ∧ a.policy.time_window = true ∧
    ∃ pdu user, (process P a.data a.policy state a.now).1 = .ok (pdu, user) ∧ user.auth.isSome

theorem accepts_admitted {state : UsmState} {a : Arrival} (h : Accepts P state a header) :
    admitted P a.data a.policy state a.now = some header := by
  obtain ⟨hh, hwindow, pdu, user, hok, hauth⟩ := h
  obtain ⟨other, hother, hadm⟩ := admitted_of_accepted hok hauth hwindow
  exact Except.ok.inj (hh.symm.trans hother) ▸ hadm

theorem accepts_timely {state : UsmState} {a : Arrival} (h : Accepts P state a header) :
    header.boots < MAX_BOOTS ∧ ∀ k, state.clocks.lookup header.engine_id = some k →
      Timely k header.boots header.engine_time a.now := by
  have hfresh := (admitted_window (accepts_admitted h)).2.2
  rcases inWindow_cases state header.engine_id header.boots header.engine_time a.now with hno | ⟨hmax, htimely, -⟩
  · exact absurd ((congrArg Prod.fst hno).symm.trans hfresh) Bool.false_ne_true
  · exact ⟨hmax, htimely⟩

theorem hear_forward (ht : l.Tracks) (a : Arrival) {e : Bytes} {k after : Clock}
    (hk : l.state.clocks.lookup e = some k) (hafter : (l.hear P a).state.clocks.lookup e = some after) (t : ℚ) :
    Behind 0 k after t := by
  cases hadm : admitted P a.data a.policy l.state a.now with
  | none =>
    rw [(hear_ignored hadm).1, hk] at hafter
    obtain rfl := Option.some.inj hafter
    exact .refl k t
  | some header =>
    have hear := hear_admitted ht.nodup ht.bounded hadm
    rcases eq_or_ne e header.engine_id with rfl | hne
    · exact admits_forward (hear.itself after hafter).2 hk t
    · have := (hear.others e hne after hafter).1
      rw [hk] at this
      obtain rfl := Option.some.inj this
      exact .refl k t

/-- What the receiver owes the clocks that it remembers. -/
structure Listener.Guarded (P : Platform) (l : Listener) : Prop where
  window : ∀ a header, Accepts P l.state a header → header.boots < MAX_BOOTS ∧
    ∀ k, l.state.clocks.lookup header.engine_id = some k → Timely k header.boots header.engine_time a.now
  highest : ∀ e k, l.state.clocks.lookup e = some k → k ∈ l.heard e ∧ ∀ c ∈ l.heard e, ∀ t, Behind 1 c k t
  forgotten : ∀ e, l.state.clocks.lookup e = none → l.heard e = []
  forward : ∀ (a : Arrival) e k after, l.state.clocks.lookup e = some k →
    (process P a.data a.policy l.state a.now).2.clocks.lookup e = some after → ∀ t, Behind 0 k after t
  silent : ∀ a : Arrival, admitted P a.data a.policy l.state a.now = none →
    (process P a.data a.policy l.state a.now).2.clocks = l.state.clocks

/-- After any messages an authenticated one is accepted under a time window only within the window of the clock
remembered of its engine, which is the highest of those let in since the engine was last remembered, give or take the
second that truncation loses where the receiver's own clock ran back. -/
theorem replay_window (P : Platform) (as : List Arrival) :
    (run (Listener.hear P) {} as).Guarded P ∧
      ∀ a header, ((as ++ [a]).map Arrival.now).Pairwise (· ≤ ·) →
        Accepts P (run (Listener.hear P) {} as).state a header →
        ∀ c ∈ (run (Listener.hear P) {} as).heard header.engine_id,
          Timely c header.boots header.engine_time a.now := by
  have htracks : (run (Listener.hear P) {} as).Tracks :=
    run_always (I := Listener.Tracks) (fun _ a h => h.hear a) _ as tracks_start
  refine ⟨⟨fun a header h => accepts_timely h, htracks.highest, htracks.forgotten,
    fun a e k after hk hafter t => hear_forward (a := a) htracks hk hafter t, fun a h => (hear_ignored h).1⟩, ?_⟩
  intro a header hp h c hc
  rw [List.map_append, List.pairwise_append] at hp
  have hall : ∀ b ∈ as, b.now ≤ a.now := fun b hb => hp.2.2 _ (List.mem_map_of_mem hb) _ (List.mem_singleton_self _)
  obtain ⟨first, hfirst, hfirsts⟩ : ∃ first, first ≤ a.now ∧ ∀ b ∈ as, first ≤ b.now := by
    cases as with
    | nil => exact ⟨a.now, le_rfl, fun b hb => absurd hb List.not_mem_nil⟩
    | cons b as =>
      refine ⟨b.now, hall b List.mem_cons_self, fun d hd => ?_⟩
      rcases List.mem_cons.mp hd with rfl | hd
      · exact le_rfl
      · exact (List.pairwise_cons.mp hp.1).1 _ (List.mem_map_of_mem hd)
  have htight := tight_run P as {} first tracks_start ⟨fun _ _ hc => absurd hc List.not_mem_nil, nofun⟩ hp.1 hfirsts
    a.now hfirst hall
  cases hk : (run (Listener.hear P) {} as).state.clocks.lookup header.engine_id with
  | none => exact absurd (htracks.forgotten _ hk ▸ hc) List.not_mem_nil
  | some k => exact (htight.behind _ k hk c hc _ le_rfl).timely ((accepts_timely h).2 k hk)

/-- A platform whose MACs are zeros, and that decodes every scoped PDU -/
def blindPlatform : Platform :=
  { publicPlatform with
    hmac := fun auth _ _ => List.replicate auth.digestSize 0
    decodeScoped := fun _ => some ⟨"TrapPDU", true, []⟩ }

/-- A trap of an engine with its boots and the two octets of its time, its MAC zeros -/
def engineTrap (hi lo boots t₁ t₂ : UInt8) : Bytes :=
  [0x30, 0x39, 0x02, 0x01, 0x03, 0x30, 0x0d, 0x02, 0x01, 0x01, 0x02, 0x02, 0x05, 0xdc, 0x04, 0x01, 0x01, 0x02, 0x01,
    0x03, 0x04, 0x23, 0x30, 0x21, 0x04, 0x05, 0x80, 0x00, 0x1f, hi, lo, 0x02, 0x01, boots, 0x02, 0x02, t₁, t₂, 0x04,
    0x01, 0x75, 0x04, 0x0c, 0, 0, 0, 0, 0, 0, 0, 0, 0, 0, 0, 0, 0x04, 0x00, 0x30, 0x00]

def engineHeader (hi lo : UInt8) (boots engineTime : Int) : Header where
  flags := 1
  engine_id := [0x80, 0x00, 0x1f, hi, lo]
  boots := boots
  engine_time := engineTime
  user := [0x75]
  auth_params := List.replicate 12 0
  auth_offset := 43
  priv_params := []
  data_tag := 0x30
  data := [0x30, 0x00]

def watcher : UsmUser where
  name := "u"
  auth := some .MD5
  auth_key := List.replicate 16 1

def watched (time_window : Bool) : SnmpPolicy := { users := [([0x75], watcher)], time_window }

theorem userOf_engineHeader (time_window : Bool) (hi lo : UInt8) (boots engineTime : Int) :
    userOf (watched time_window) (engineHeader hi lo boots engineTime) = .ok watcher := by
  have hlookup : (watched time_window).users.lookup (engineHeader hi lo boots engineTime).user = some watcher := rfl
  have hpriv : (engineHeader hi lo boots engineTime).flags &&& FLAG_PRIV = 0 := by
    change (1 : UInt8) &&& FLAG_PRIV = 0
    decide
  have hauth : (engineHeader hi lo boots engineTime).flags &&& FLAG_AUTH ≠ 0 := by
    change (1 : UInt8) &&& FLAG_AUTH ≠ 0
    decide
  have hlevel : (engineHeader hi lo boots engineTime).level = watcher.level := by
    rw [Header.level, if_neg (fun h => h hpriv), if_pos hauth]
    rfl
  unfold userOf
  rw [hlookup]
  dsimp only
  rw [if_neg (fun h => Bool.false_ne_true h.1), if_neg (fun h => h.1 hpriv), hlevel, if_neg (lt_irrefl _),
    if_neg (lt_irrefl _)]

theorem verified_engineTrap (data key : Bytes) (hi lo : UInt8) (boots engineTime : Int) :
    verified blindPlatform data (engineHeader hi lo boots engineTime) .MD5 key = true := rfl

theorem process_engineTrap {data : Bytes} {time_window : Bool} {state : UsmState} {now : ℚ} {hi lo : UInt8}
    {boots engineTime : Int} (hparse : parseHeader data = .ok (engineHeader hi lo boots engineTime))
    (hfresh : time_window = true → (state.inWindow [0x80, 0x00, 0x1f, hi, lo] boots engineTime now).1 = true) :
    (process blindPlatform data (watched time_window) state now).1 = .ok (⟨"TrapPDU", true, []⟩, watcher) := by
  have hauth : (authenticate blindPlatform data (watched time_window)
      (state.keysFor blindPlatform watcher (engineHeader hi lo boots engineTime).engine_id).2 now
      (engineHeader hi lo boots engineTime) watcher
      (state.keysFor blindPlatform watcher (engineHeader hi lo boots engineTime).engine_id).1.1).1 = .ok () := by
    unfold authenticate
    change (if verified blindPlatform data (engineHeader hi lo boots engineTime) .MD5 _ = true then _ else _ :
      Except String Unit × UsmState).1 = _
    rw [verified_engineTrap, if_pos rfl]
    cases time_window with
    | false => rfl
    | true =>
      have hin := (inWindow_congr (keysFor_clocks blindPlatform state watcher
        (engineHeader hi lo boots engineTime).engine_id) (engineHeader hi lo boots engineTime).engine_id boots
        engineTime now).1.trans (hfresh rfl)
      exact if_pos hin
  unfold process
  simp only [hparse, userOf_engineHeader]
  split
  · rename_i h
    rw [h] at hauth
    exact absurd hauth nofun
  · rfl

theorem accepts_unremembered {state : UsmState} {hi lo boots : UInt8} (hboots : boots = 1 ∨ boots = 2)
    (h : state.clocks.lookup [0x80, 0x00, 0x1f, hi, lo] = none) :
    Accepts blindPlatform state ⟨engineTrap hi lo boots 3 232, watched true, 0⟩
      (engineHeader hi lo boots.toNat 1000) := by
  have hparse : parseHeader (engineTrap hi lo boots 3 232) = .ok (engineHeader hi lo boots.toNat 1000) := by
    rcases hboots with rfl | rfl <;> rfl
  refine ⟨hparse, rfl, ⟨"TrapPDU", true, []⟩, watcher, process_engineTrap hparse fun _ => ?_, rfl⟩
  unfold UsmState.inWindow
  dsimp only
  rw [if_neg (by rcases hboots with rfl | rfl <;> decide), h]

def engineOctets (n : ℕ) : UInt8 × UInt8 := (UInt8.ofNat (n / 256), UInt8.ofNat n)

def engineId (n : ℕ) : Bytes := [0x80, 0x00, 0x1f, (engineOctets n).1, (engineOctets n).2]

/-- A trap of an engine that was heard before is let in within the window. -/
theorem replay_window_forward :
    let l := run (Listener.hear blindPlatform) {} [⟨engineTrap 0 1 1 3 232, watched true, 0⟩]
    l.heard (engineId 1) = [(1, 1000, 0)] ∧ Timely (1, 1000, 0) 1 1100 90 := by
  intro l
  have hheard : l.heard (engineId 1) = [(1, 1000, 0)] := by decide +kernel
  refine ⟨hheard, (replay_window blindPlatform _).2 ⟨engineTrap 0 1 1 4 76, watched true, 90⟩ (engineHeader 0 1 1 1100)
    (by decide +kernel) ?_ _ (hheard ▸ List.mem_singleton_self _)⟩
  exact ⟨rfl, rfl, ⟨"TrapPDU", true, []⟩, watcher, process_engineTrap rfl fun _ => by decide +kernel, rfl⟩

/-- A trap of the engine of a number -/
def numbered (boots : UInt8) (n : ℕ) : Arrival :=
  ⟨engineTrap (engineOctets n).1 (engineOctets n).2 boots 3 232, watched true, 0⟩

theorem engineId_injective {m n : ℕ} (hm : m < 65536) (hn : n < 65536) (h : engineId m = engineId n) : m = n := by
  simp only [engineId, engineOctets, List.cons.injEq, ← UInt8.toNat_inj, UInt8.toNat_ofNat'] at h
  omega

def firsts (n : ℕ) : List (Bytes × Clock) := (List.range n).map fun m => (engineId m, 2, 1000, 0)

theorem firsts_unknown {n : ℕ} (hn : n < 65536) : (firsts n).lookup (engineId n) = none := by
  refine List.lookup_eq_none_iff.mpr fun e he => ?_
  obtain ⟨m, hm, rfl⟩ := List.mem_map.mp he
  have hlt := List.mem_range.mp hm
  exact bne_iff_ne.mpr fun h => absurd (engineId_injective hn (hlt.trans hn) h) hlt.ne'

theorem moveToEnd_firsts {n : ℕ} (hn : n < 65536) : moveToEnd (engineId n) ((2, 1000, 0) : Clock) (firsts n) =
    firsts (n + 1) := by
  have hkeep : (firsts n).filter (·.1 ≠ engineId n) = firsts n := by
    refine List.filter_eq_self.mpr fun e he => decide_eq_true ?_
    obtain ⟨m, hm, rfl⟩ := List.mem_map.mp he
    have hlt := List.mem_range.mp hm
    exact fun h => absurd (engineId_injective (hlt.trans hn) hn h) hlt.ne
  rw [moveToEnd, hkeep, firsts, firsts, List.range_succ, List.map_append]
  rfl

theorem hear_numbered {l : Listener} {n : ℕ} (hn : n < 65536) (h : l.state.clocks = firsts n) :
    (l.hear blindPlatform (numbered 2 n)).state.clocks = bounded (firsts (n + 1)) := by
  have hunknown : l.state.clocks.lookup (engineId n) = none := h ▸ firsts_unknown hn
  have hadm := accepts_admitted (accepts_unremembered (.inr rfl : (2 : UInt8) = 1 ∨ (2 : UInt8) = 2) hunknown)
  refine (process_clocks : (process blindPlatform _ _ l.state 0).2.clocks = _).trans ?_
  rw [show admitted blindPlatform (numbered 2 n).data (numbered 2 n).policy l.state 0 = _ from hadm]
  dsimp only
  rcases inWindow_cases l.state (engineId n) 2 1000 0 with hno | ⟨-, -, hold | hnew⟩
  · have hfresh := (admitted_window hadm).2.2
    exact absurd ((congrArg Prod.fst hno).symm.trans hfresh) Bool.false_ne_true
  · obtain ⟨k, hk, -⟩ := hold
    exact absurd (hk.symm.trans hunknown) nofun
  · refine (congrArg (fun r => r.2.clocks) hnew.2).trans (congrArg bounded ?_)
    rw [h]
    exact moveToEnd_firsts hn

def flooding (n : ℕ) : List Arrival := (List.range n).map (numbered 2)

theorem run_flooding (n : ℕ) : run (Listener.hear blindPlatform) {} (flooding (n + 1)) =
    (run (Listener.hear blindPlatform) {} (flooding n)).hear blindPlatform (numbered 2 n) := by
  rw [flooding, List.range_succ, List.map_append, run_append]
  rfl

theorem flooding_remembered : ∀ n ≤ CACHE_ENTRIES,
    (run (Listener.hear blindPlatform) {} (flooding n)).state.clocks = firsts n
  | 0, _ => rfl
  | n + 1, hn => by
    have hlt : n < 65536 := lt_of_lt_of_le hn (by decide)
    rw [run_flooding, hear_numbered hlt (flooding_remembered n (Nat.le_of_succ_le hn)), bounded, if_neg]
    rw [firsts, List.length_map, List.length_range]
    exact not_lt.mpr hn

theorem flooding_forgets :
    (run (Listener.hear blindPlatform) {} (flooding (CACHE_ENTRIES + 1))).state.clocks.lookup (engineId 0) =
      none := by
  rw [run_flooding, hear_numbered (by decide) (flooding_remembered _ le_rfl), bounded, if_pos]
  · refine List.lookup_eq_none_iff.mpr fun e he => ?_
    rw [firsts, List.range_succ_eq_map, List.map_cons, List.drop_one, List.tail_cons, List.map_map] at he
    obtain ⟨m, hm, rfl⟩ := List.mem_map.mp he
    have hlt : m + 1 < 65536 := (Nat.succ_lt_succ (List.mem_range.mp hm)).trans (by decide)
    exact bne_iff_ne.mpr fun h => absurd (engineId_injective (by decide) hlt h) (Nat.succ_ne_zero m).symm
  · rw [firsts, List.length_map, List.length_range]
    exact Nat.lt_succ_self _

/-- The clock of an engine is forgotten under a flood of others, none is asked for without a time window, and one let
in may run ahead of the one remembered where the receiver's own clock runs back. -/
theorem replay_accepted :
    (∃ as first late h h', as.head? = some first ∧ Accepts blindPlatform {} first h ∧
      Accepts blindPlatform (run (Listener.hear blindPlatform) {} as).state late h' ∧
      h'.engine_id = h.engine_id ∧ h'.boots < h.boots) ∧
    (∃ first late : Arrival, ∃ h h' pdu user, Accepts blindPlatform {} first h ∧ parseHeader late.data = .ok h' ∧
      (process blindPlatform late.data late.policy (Listener.hear blindPlatform {} first).state late.now).1 =
        .ok (pdu, user) ∧ user.auth.isSome ∧ h'.engine_id = h.engine_id ∧ h'.boots < h.boots) ∧
    ∃ as late h, Accepts blindPlatform (run (Listener.hear blindPlatform) {} as).state late h ∧
      ∃ c ∈ (run (Listener.hear blindPlatform) {} as).heard h.engine_id,
        ¬ Timely c h.boots h.engine_time late.now := by
  refine ⟨⟨flooding (CACHE_ENTRIES + 1), numbered 2 0, numbered 1 0, engineHeader 0 0 2 1000, engineHeader 0 0 1 1000,
    ?_, accepts_unremembered (.inr rfl) rfl, accepts_unremembered (.inl rfl) flooding_forgets, rfl, by decide⟩,
    ⟨⟨engineTrap 0 0 2 3 232, watched true, 0⟩, ⟨engineTrap 0 0 1 3 232, watched false, 0⟩, engineHeader 0 0 2 1000,
      engineHeader 0 0 1 1000, _, _, accepts_unremembered (.inr rfl) rfl, rfl,
      process_engineTrap (by rfl) nofun, rfl, rfl, by decide⟩,
    [⟨engineTrap 0 0 2 3 232, watched true, 0⟩, ⟨engineTrap 0 0 2 3 233, watched true, 3 / 2⟩],
    ⟨engineTrap 0 0 2 3 82, watched true, 9 / 10⟩, engineHeader 0 0 2 850,
    ⟨rfl, rfl, _, _, process_engineTrap (by rfl) fun _ => by decide +kernel, rfl⟩, (2, 1001, 3 / 2), ?_, ?_⟩
  · rw [flooding, List.range_succ_eq_map]
    rfl
  · decide +kernel
  · unfold Timely reads
    decide +kernel

end NetCoreNoc.Snmp
