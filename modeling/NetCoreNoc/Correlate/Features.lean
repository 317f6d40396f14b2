import Mathlib
import NetCoreNoc.Text
import NetCoreNoc.Operate.WhatIf

/-! The pair features as they are served: one batch for an arriving alarm, with the lookups that its candidates share,
and the addresses that a trap names (`engine/correlate/features.py`). -/
namespace NetCoreNoc.Correlate.Recall
open Json Text

section Batch
variable {E : Type}

/-- `table.get(key)`, or what is looked up, which the table then keeps. -/
def memo {K V : Type} [DecidableEq K] (table : List (K × V)) (key : K) (looked : V) : List (K × V) × V :=
  match table.lookup key with
  | some v => (table, v)
  | none => ((key, looked) :: table, looked)

/-- The tables that the candidates of one alarm share. -/
structure Memos (E : Type) where
  class_affinity : List (Nat × E) := []
  entity_affinity : List ((Nat × Nat) × E) := []
  ne_episodes : List (Nat × Nat) := []
  class_episodes : List (Nat × Nat) := []
  item_episodes : List ((Nat × Nat) × Nat) := []
  degree : List (Nat × Nat) := []

variable (new : Activation) (learner : Affinities E) (episodes : PartneredMemory) (burst : Nat)

/-- The loop of `vectors`. -/
def batch (hour : ℤ) (new_degree : Nat) : List Activation → Memos E → List (Features E)
  | [], _ => []
  | old :: olds, m =>
    let dt := |new.ts - old.ts|
    let cls := old.class_id
    let ne := old.device_id
    let a := memo m.class_affinity cls (learner.class_affinity new.class_id cls)
    let e := memo m.entity_affinity (old.entity_id, ne)
      (learner.entity_affinity new.entity_id new.device_id old.entity_id ne)
    let ne_count := memo m.ne_episodes ne (episodes.ne_prior new.device_id ne new.ts)
    let cls_count := memo m.class_episodes cls (episodes.cls_prior new.class_id cls new.ts)
    let item_count := memo m.item_episodes (ne, cls)
      (episodes.item_prior (new.device_id, new.class_id) (ne, cls) new.ts)
    let hub := memo m.degree ne (max new_degree (degree episodes ne))
    { dt := if dt < MAX_DT_S then dt else MAX_DT_S
      same_ne := new.device_id = ne
      same_class := new.class_id = cls
      oid_arcs := common_arcs new.arcs old.arcs
      class_affinity := a.2
      entity_affinity := e.2
      ne_episodes := ne_count.2
      class_episodes := cls_count.2
      item_episodes := item_count.2
      severity := if min new.severity_rank old.severity_rank < 0 then UNKNOWN_SEVERITY
        else max new.severity_rank old.severity_rank
      burst := burst
      chatter := max new.chatter old.chatter
      degree := hub.2
      cross_ref := (new.source ∈ old.refs || old.source ∈ new.refs) && new.source ≠ ""
      hour := hour } ::
    batch hour new_degree olds ⟨a.1, e.1, ne_count.1, cls_count.1, item_count.1, hub.1⟩

end Batch

def vectors {E : Type} (new : Activation) (olds : List Activation) (learner : Affinities E)
    (episodes : PartneredMemory) (burst : Nat) : List (Features E) :=
  batch new learner episodes burst (⌊new.ts / 3600⌋ % 24) (degree episodes new.device_id) olds {}

section References

/-- `len(found)` at which no more addresses are looked for. -/
def MAX_REFS : Nat := 4

/-- `p.isdigit() and len(p) <= 3 and int(p) <= 255` -/
def octet (p : Str) : Except Str Bool :=
  if isdigit p && p.length ≤ 3 then (intOf p).map fun n => decide (n ≤ 255) else .ok false

/-- `all` over the parts, up to the first that is not an octet. -/
def octets : List Str → Except Str Bool
  | [] => .ok true
  | p :: parts => (octet p).bind fun ok => if ok then octets parts else .ok false

/-- `value.split(".")` -/
def parts (value : Str) : List Str := value.splitOn (chr '.')

/-- The loop of `references`. -/
def collect (source : Str) : List Str → Finset Str → Except Str (Finset Str)
  | [], found => .ok found
  | value :: values, found =>
    if (parts value).length ≠ 4 || value = source then collect source values found
    else (octets (parts value)).bind fun ok =>
      if !ok then collect source values found
      else if MAX_REFS ≤ (insert value found).card then .ok (insert value found)
      else collect source values (insert value found)

def references (values : List Str) (source : Str) : Except Str (Finset Str) := collect source values ∅

end References

/-! ## The batch -/

/-- A table holds only what a lookup gives. -/
def Looked {K V : Type} [DecidableEq K] (f : K → V) (table : List (K × V)) : Prop :=
  ∀ k v, table.lookup k = some v → v = f k

private theorem looked_nil {K V : Type} [DecidableEq K] (f : K → V) : Looked f [] := fun _ _ h => nomatch h

private theorem memo_value {K V : Type} [DecidableEq K] {f : K → V} {table : List (K × V)} (h : Looked f table)
    (key : K) : (memo table key (f key)).2 = f key := by
  unfold memo
  split
  · exact h key _ ‹_›
  · rfl

private theorem memo_looked {K V : Type} [DecidableEq K] {f : K → V} {table : List (K × V)} (h : Looked f table)
    (key : K) : Looked f (memo table key (f key)).1 := by
  unfold memo
  split
  · exact h
  · intro k v hk
    rw [List.lookup_cons] at hk
    split at hk
    · rename_i heq
      rw [beq_iff_eq.mp heq]
      exact (Option.some.inj hk).symm
    · exact h k v hk

section Batched
variable {E : Type} (new : Activation) (learner : Affinities E) (episodes : PartneredMemory) (burst : Nat)

/-- The tables that a batch may have. -/
structure Memos.Sound (m : Memos E) : Prop where
  class_affinity : Looked (learner.class_affinity new.class_id) m.class_affinity
  entity_affinity :
    Looked (fun k => learner.entity_affinity new.entity_id new.device_id k.1 k.2) m.entity_affinity
  ne_episodes : Looked (episodes.ne_prior new.device_id · new.ts) m.ne_episodes
  class_episodes : Looked (episodes.cls_prior new.class_id · new.ts) m.class_episodes
  item_episodes : Looked (episodes.item_prior (new.device_id, new.class_id) · new.ts) m.item_episodes
  degree : Looked (fun ne => max (Recall.degree episodes new.device_id) (Recall.degree episodes ne)) m.degree

variable {new learner episodes}

private theorem batch_eq (olds : List Activation) (m : Memos E) (h : m.Sound new learner episodes) :
    batch new learner episodes burst (⌊new.ts / 3600⌋ % 24) (degree episodes new.device_id) olds m =
      olds.map fun old => vector new old learner episodes burst := by
  induction olds generalizing m with
  | nil => rfl
  | cons old olds ih =>
    have ha := memo_value h.class_affinity old.class_id
    have he := memo_value h.entity_affinity (old.entity_id, old.device_id)
    have hne := memo_value h.ne_episodes old.device_id
    have hcls := memo_value h.class_episodes old.class_id
    have hitem := memo_value h.item_episodes (old.device_id, old.class_id)
    have hhub := memo_value h.degree old.device_id
    have hdt : (if |new.ts - old.ts| < MAX_DT_S then |new.ts - old.ts| else MAX_DT_S) =
        min MAX_DT_S |new.ts - old.ts| := by
      rcases lt_or_ge |new.ts - old.ts| MAX_DT_S with hlt | hge
      · rw [if_pos hlt, min_eq_right hlt.le]
      · rw [if_neg (not_lt.mpr hge), min_eq_left hge]
    unfold batch
    dsimp only at ha he hne hcls hitem hhub ⊢
    rw [ih _ ⟨memo_looked h.class_affinity _, memo_looked h.entity_affinity _, memo_looked h.ne_episodes _,
      memo_looked h.class_episodes _, memo_looked h.item_episodes _, memo_looked h.degree _⟩,
      ha, he, hne, hcls, hitem, hhub, hdt]
    rfl

/-- A lookup that is made once is the one that is made for each candidate. -/
theorem vectors_eq (olds : List Activation) : vectors new olds learner episodes burst =
    olds.map fun old => vector new old learner episodes burst :=
  batch_eq burst olds {} ⟨looked_nil _, looked_nil _, looked_nil _, looked_nil _, looked_nil _, looked_nil _⟩

end Batched

/-! ## The swap -/

section Swap
variable {E : Type} [Field E] [LinearOrder E] [IsStrictOrderedRing E]

private theorem sides_comm (a b : Nat) : sides a b = sides b a := by
  have hlt : ∀ {a b : Nat}, a < b → sides a b = sides b a := fun {a b} h => by
    have hle : sides a b = ⟨(a, b), h.le⟩ := dif_pos h.le
    have hgt : sides b a = ⟨(a, b), h.le⟩ := dif_neg (not_le.mpr h)
    exact hle.trans hgt.symm
  rcases lt_trichotomy a b with h | rfl | h
  · exact hlt h
  · rfl
  · exact (hlt h).symm

omit [IsStrictOrderedRing E] in
private theorem affinity_comm (log : E → E) (m : Matrix) (a b : Nat) : m.affinity log a b = m.affinity log b a := by
  unfold Matrix.affinity Matrix.pair_mass npmi
  rw [sides_comm a b]
  simp only [or_comm (a := (m.activation a : E) ≤ 0), mul_comm (min ((m.activation a : E) / _) 1)]

private theorem entity_affinity_comm (log : E → E) (l : Learner) (a ne b ne' : Nat) :
    (lookups log l).entity_affinity a ne b ne' = (lookups log l).entity_affinity b ne' a ne := by
  unfold lookups
  dsimp only
  rw [affinity_comm log l.E ne ne', Matrix.pair_mass, Matrix.pair_mass, sides_comm ne ne']
  simp only [eq_comm (a := a), eq_comm (a := ne)]

private theorem common_arcs_comm (a b : List String) : common_arcs a b = common_arcs b a := by
  unfold common_arcs
  congr 1
  induction a generalizing b with
  | nil => cases b <;> rfl
  | cons x a ih =>
    cases b with
    | nil => rfl
    | cons y b =>
      rw [List.zip_cons_cons, List.zip_cons_cons, List.takeWhile_cons, List.takeWhile_cons]
      by_cases h : x = y
      · simp [h, ih b]
      · simp [h, Ne.symm h]

private theorem prior_comm (e : PartneredMemory) (now : ℚ) :
    (∀ a b, e.ne_prior a b now = e.ne_prior b a now) ∧ (∀ a b, e.cls_prior a b now = e.cls_prior b a now) ∧
      ∀ a b, e.item_prior a b now = e.item_prior b a now := by
  refine ⟨fun a b => ?_, fun a b => ?_, fun a b => ?_⟩
  · unfold PartneredMemory.ne_prior
    rw [Key.pair_comm]
    simp only [eq_comm (a := a)]
  · unfold PartneredMemory.cls_prior
    rw [Key.pair_comm]
  · unfold PartneredMemory.item_prior
    rw [Key.pair_comm]

/-- One alarm's varbinds name the other's management address. -/
def Names (a b : Activation) : Prop := a.source ∈ b.refs ∨ b.source ∈ a.refs

instance (a b : Activation) : Decidable (Names a b) := inferInstanceAs (Decidable (_ ∨ _))

/-- Neither of two alarms that name one another is without an address, or both are. -/
def Addressed (a b : Activation) : Prop := Names a b → (a.source = "" ↔ b.source = "")

/-- The features of a pair taken either way: those of the two alarms agree, and all do where they are of one time. -/
structure Swapped (f g : Features E) (same_ts : Prop) : Prop where
  dt : f.dt = g.dt
  same_ne : f.same_ne = g.same_ne
  same_class : f.same_class = g.same_class
  oid_arcs : f.oid_arcs = g.oid_arcs
  class_affinity : f.class_affinity = g.class_affinity
  entity_affinity : f.entity_affinity = g.entity_affinity
  severity : f.severity = g.severity
  burst : f.burst = g.burst
  chatter : f.chatter = g.chatter
  degree : f.degree = g.degree
  cross_ref : f.cross_ref = g.cross_ref
  whole : same_ts → f = g

variable (log : E → E) (l : Learner) (episodes : PartneredMemory) (burst : Nat) (new old : Activation)

private theorem cross_ref_iff :
    (vector new old (lookups log l).toAffinities episodes burst).cross_ref =
      (vector old new (lookups log l).toAffinities episodes burst).cross_ref ↔ Addressed new old := by
  have hcross : ∀ a b : Activation, (vector a b (lookups log l).toAffinities episodes burst).cross_ref =
      decide (Names a b ∧ a.source ≠ "") := fun a b => by
    unfold vector Names
    simp
  have hnames : Names old new ↔ Names new old := or_comm
  rw [hcross, hcross, decide_eq_decide, hnames]
  unfold Addressed
  tauto

theorem vector_swapped (h : Addressed new old) : Swapped (vector new old (lookups log l).toAffinities episodes burst)
    (vector old new (lookups log l).toAffinities episodes burst) (new.ts = old.ts) := by
  have hdt : min MAX_DT_S |new.ts - old.ts| = min MAX_DT_S |old.ts - new.ts| := by rw [abs_sub_comm]
  have hne : decide (new.device_id = old.device_id) = decide (old.device_id = new.device_id) := by
    simp only [eq_comm]
  have hclass : decide (new.class_id = old.class_id) = decide (old.class_id = new.class_id) := by
    simp only [eq_comm]
  have hseverity : (if min new.severity_rank old.severity_rank < 0 then UNKNOWN_SEVERITY
      else max new.severity_rank old.severity_rank) = if min old.severity_rank new.severity_rank < 0 then
        UNKNOWN_SEVERITY else max old.severity_rank new.severity_rank := by rw [min_comm, max_comm]
  have hcross := (cross_ref_iff log l episodes burst new old).mpr h
  have haffinity := affinity_comm log l.A new.class_id old.class_id
  have hentity := entity_affinity_comm log l new.entity_id new.device_id old.entity_id old.device_id
  refine ⟨hdt, hne, hclass, common_arcs_comm _ _, haffinity, hentity, hseverity, rfl, max_comm _ _, max_comm _ _,
    hcross, fun hts => ?_⟩
  obtain ⟨hnes, hclasses, hitems⟩ := prior_comm episodes new.ts
  unfold vector at hcross ⊢
  dsimp only at hcross ⊢
  rw [hdt, hne, hclass, common_arcs_comm, hentity, hseverity, hcross, hnes, hclasses, hitems, hts,
    max_comm new.chatter, max_comm (degree episodes new.device_id)]
  congr 1

end Swap

/-! ## The references -/

section Legible

/-- A part that stands for one octet. -/
def isOctet (p : Str) : Bool :=
  isdigit p && p.length ≤ 3 && p.all isDecimal && p.foldl (fun n c => 10 * n + decimal c) 0 ≤ 255

/-- Up to three digits of which one is not decimal: no octet, and nothing that `int` reads. -/
def isTrap (p : Str) : Bool := isdigit p && p.length ≤ 3 && !p.all isDecimal

/-- The first part that is no octet is such a text. -/
def traps (parts : List Str) : Bool := ((parts.dropWhile isOctet).head?).any isTrap

/-- Four parts, and not the trap's own source. -/
def shaped (source value : Str) : Bool := (parts value).length = 4 && value ≠ source

def isAddress (source value : Str) : Bool := shaped source value && (parts value).all isOctet

/-- No value that is looked at, before enough addresses were found, has a trap among its parts. -/
def Legible (source : Str) (values : List Str) : Prop := ∀ before value after, values = before ++ value :: after →
  (before.filter (isAddress source)).toFinset.card < MAX_REFS → shaped source value → ¬ traps (parts value)

private theorem octet_eq (p : Str) : octet p = if isTrap p then .error p else .ok (isOctet p) := by
  unfold octet intOf isTrap isOctet
  cases hd : isdigit p && decide (p.length ≤ 3) <;> cases hall : p.all isDecimal <;> rfl

/-- The parts are read up to the first that is no octet. -/
private theorem octets_eq : ∀ ps : List Str,
    (traps ps → ∃ p, octets ps = .error p) ∧ (¬ traps ps → octets ps = .ok (ps.all isOctet))
  | [] => ⟨fun h => absurd h (by simp [traps]), fun _ => rfl⟩
  | p :: ps => by
    obtain ⟨htrap, hok⟩ := octets_eq ps
    unfold octets
    rw [octet_eq]
    rcases hp : isTrap p with _ | _
    · rcases ho : isOctet p with _ | _
      · simp [traps, ho, hp, Except.bind]
      · have hrest : traps (p :: ps) = traps ps := by simp [traps, ho]
        rw [hrest]
        simp only [List.all_cons, ho, Bool.true_and]
        exact ⟨htrap, hok⟩
    · -- a text with a digit that is not decimal is no octet
      have ho : isOctet p = false := by
        unfold isTrap at hp
        simp only [Bool.and_eq_true, Bool.not_eq_true'] at hp
        simp [isOctet, hp.2]
      simp [traps, ho, hp, Except.bind]

private theorem collect_ok_iff (source : Str) (values : List Str) (found : Finset Str)
    (hroom : found.card < MAX_REFS) :
    (∃ refs, collect source values found = .ok refs) ↔ ∀ before value after, values = before ++ value :: after →
      (found ∪ (before.filter (isAddress source)).toFinset).card < MAX_REFS → shaped source value →
        ¬ traps (parts value) := by
  induction values generalizing found with
  | nil => exact iff_of_true ⟨found, rfl⟩ fun before value after h => absurd h (by simp)
  | cons value values ih =>
    -- what is asked of the first value, and of the others
    have hsplit : (∀ before v after, value :: values = before ++ v :: after →
        (found ∪ (before.filter (isAddress source)).toFinset).card < MAX_REFS → shaped source v → ¬ traps (parts v)) ↔
        (shaped source value → ¬ traps (parts value)) ∧ ∀ before v after, values = before ++ v :: after →
          (found ∪ ((value :: before).filter (isAddress source)).toFinset).card < MAX_REFS → shaped source v →
            ¬ traps (parts v) := by
      refine ⟨fun h => ⟨h [] value values rfl (by simpa using hroom), fun before v after hv =>
        h (value :: before) v after (by rw [hv]; rfl)⟩, fun ⟨hfirst, hothers⟩ before v after hv => ?_⟩
      cases before with
      | nil =>
        obtain ⟨rfl, rfl⟩ := List.cons.inj hv
        exact fun _ => hfirst
      | cons b before =>
        obtain ⟨rfl, htail⟩ := List.cons.inj hv
        exact hothers before v after htail
    rw [hsplit]
    unfold collect
    rcases hs : shaped source value with _ | _
    · have hskip : ((parts value).length ≠ 4 || value = source) = true := by
        simpa [shaped, Bool.and_eq_false_iff, or_iff_not_imp_left] using hs
      rw [if_pos hskip, ih found hroom]
      have haddr : isAddress source value = false := by simp [isAddress, hs]
      simp only [List.filter_cons, haddr, Bool.false_eq_true, if_false, false_imp_iff, true_and]
    · have hgo : ((parts value).length ≠ 4 || value = source) = false := by
        simpa [shaped] using hs
      rw [hgo]
      obtain ⟨htrap, hok⟩ := octets_eq (parts value)
      by_cases ht : traps (parts value)
      · obtain ⟨p, hp⟩ := htrap ht
        refine iff_of_false ?_ fun h => h.1 rfl ht
        rintro ⟨refs, hrefs⟩
        rw [hp] at hrefs
        exact nomatch hrefs
      have haddr : isAddress source value = (parts value).all isOctet := by simp [isAddress, hs]
      rw [hok ht, if_neg Bool.false_ne_true, Except.bind]
      rcases hall : (parts value).all isOctet with _ | _
      · simp only [Bool.not_false, if_true]
        rw [ih found hroom]
        simp only [List.filter_cons, haddr, hall, Bool.false_eq_true, if_false]
        exact ⟨fun h => ⟨fun _ => ht, h⟩, fun h => h.2⟩
      · have hunion : ∀ before : List Str, found ∪ ((value :: before).filter (isAddress source)).toFinset =
            insert value found ∪ (before.filter (isAddress source)).toFinset := fun before => by
          rw [List.filter_cons, haddr, hall, if_pos rfl, List.toFinset_cons, Finset.union_insert, Finset.insert_union]
        simp only [Bool.not_true, Bool.false_eq_true, if_false, hunion]
        split
        · rename_i hfull
          refine iff_of_true ⟨_, rfl⟩ ⟨fun _ => ht, fun before v after _ hcard => ?_⟩
          exact absurd (hfull.trans (Finset.card_le_card Finset.subset_union_left)) (not_le.mpr hcard)
        · rename_i hroom'
          rw [ih _ (not_le.mp hroom')]
          exact ⟨fun h => ⟨fun _ => ht, h⟩, fun h => h.2⟩

private theorem references_ok_iff (source : Str) (values : List Str) :
    (∃ refs, references values source = .ok refs) ↔ Legible source values := by
  unfold references Legible
  rw [collect_ok_iff source values ∅ (by decide)]
  simp only [Finset.empty_union]

end Legible

section Served
variable {E : Type} [Field E] [LinearOrder E] [IsStrictOrderedRing E]

/-- What the features of an arriving alarm promise: the batch is the pairs one by one, either alarm of a pair may come
first, and the addresses of any varbinds can be read. -/
structure Served (log : E → E) (l : Learner) (episodes : PartneredMemory) (burst : Nat) (new : Activation)
    (olds : List Activation) (source : Str) (values : List Str) : Prop where
  batched : vectors new olds (lookups log l).toAffinities episodes burst =
    olds.map fun old => vector new old (lookups log l).toAffinities episodes burst
  swapped : ∀ old ∈ olds, Swapped (vector new old (lookups log l).toAffinities episodes burst)
    (vector old new (lookups log l).toAffinities episodes burst) (new.ts = old.ts)
  read : ∃ refs, references values source = .ok refs

theorem features_served_iff (log : E → E) (l : Learner) (episodes : PartneredMemory) (burst : Nat) (new : Activation)
    (olds : List Activation) (source : Str) (values : List Str) :
    Served log l episodes burst new olds source values ↔
      Legible source values ∧ ∀ old ∈ olds, Addressed new old := by
  constructor
  · intro h
    refine ⟨(references_ok_iff source values).mp h.read, fun old hold => ?_⟩
    exact (cross_ref_iff log l episodes burst new old).mp (h.swapped old hold).cross_ref
  · rintro ⟨hlegible, haddressed⟩
    refine ⟨vectors_eq burst olds, fun old hold => ?_, (references_ok_iff source values).mpr hlegible⟩
    exact vector_swapped log l episodes burst new old (haddressed old hold)

end Served

/-- An address among the varbinds, and an earlier alarm of the same device. -/
theorem features_served_legible :
    Served (id : ℚ → ℚ) {} {} 0 { alarm_id := 2, class_id := 1, device_id := 1, ts := 5, entity_id := 1 }
      [{ alarm_id := 1, class_id := 1, device_id := 1, ts := 0, entity_id := 1 }] (lit "10.0.0.9") [lit "10.0.0.1"] := by
  refine (features_served_iff id {} {} 0 _ _ _ _).mpr ⟨?_, ?_⟩
  · exact (references_ok_iff _ _).mp ⟨{lit "10.0.0.1"}, by decide +kernel⟩
  · intro old hold
    obtain rfl := List.mem_singleton.mp hold
    exact fun _ => Iff.rfl

/-- A part that is a superscript digit. -/
theorem superscript_refused : ¬ ∀ (log : ℚ → ℚ) (l : Learner) (episodes : PartneredMemory) (burst : Nat)
    (new : Activation) (olds : List Activation) (source : Str) (values : List Str),
    Served log l episodes burst new olds source values := by
  intro h
  let alarm : Activation := { alarm_id := 1, class_id := 1, device_id := 1, ts := 0, entity_id := 1 }
  obtain ⟨refs, hrefs⟩ := (h id {} {} 0 alarm [] (lit "10.0.0.9") [chr '²' :: lit ".0.0.1"]).read
  have hraised : (match references [chr '²' :: lit ".0.0.1"] (lit "10.0.0.9") with
    | .error literal => literal == [chr '²']
    | .ok _ => false) = true := by decide +kernel
  rw [hrefs] at hraised
  exact nomatch hraised

end NetCoreNoc.Correlate.Recall
