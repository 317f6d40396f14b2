import Mathlib
import NetCoreNoc.Checks
import NetCoreNoc.Orbits
import NetCoreNoc.Tables

/-! Incident identity follows the chain of merges (`engine/dataset/incidents.py`). -/
namespace NetCoreNoc.Dataset
open Orbits Checks Tables

def MAX_CHAIN_DEPTH : ℕ := 64

structure Resolution where
  incident : ℤ
  cycle : Bool := false
  unterminated : Bool := false
  deriving DecidableEq

/-- A mapping holds no such key. -/
structure KeyError where
  key : ℤ
  deriving DecidableEq

/-- The ids on a cycle, of which there is one. -/
abbrev Members := {members : Finset ℤ // members.Nonempty}

def Members.add (members : Members) (node : ℤ) : Members := ⟨insert node members.1, Finset.insert_nonempty _ _⟩

variable (merged_into : Table ℤ ℤ)

/-- The loop of `_cycle_members`. -/
def around (entry : ℤ) : ℕ → ℤ → Members → Members
  | 0, _, members => members
  | steps + 1, node, members =>
    if node = entry then members
    else match merged_into.get node with
      | none => members.add node
      | some next_node => around entry steps next_node (members.add node)

/-- `_cycle_members` -/
def cycle_members (entry : ℤ) : Except KeyError Members :=
  match merged_into.get entry with
  | none => .error ⟨entry⟩
  | some node => .ok (around merged_into entry MAX_CHAIN_DEPTH node ⟨{entry}, Finset.singleton_nonempty entry⟩)

/-- The loop of `resolve`. -/
def follow : ℕ → Finset ℤ → ℤ → Except KeyError Resolution
  | 0, _, current => .ok { incident := current, unterminated := true }
  | steps + 1, seen, current =>
    match merged_into.get current with
    | none => .ok { incident := current }
    | some nxt =>
      if nxt ∈ seen then do
        let members ← cycle_members merged_into nxt
        .ok { incident := members.1.min' members.2, cycle := true }
      else follow steps (insert nxt seen) nxt

def resolve (situation_id : ℤ) : Except KeyError Resolution :=
  follow merged_into MAX_CHAIN_DEPTH {situation_id} situation_id

/-- Every situation's incident, beside the one-hop answer. -/
structure IncidentMap where
  incident_of : Table ℤ ℤ := .empty
  one_hop_of : Table ℤ ℤ := .empty
  cycles : Finset ℤ := ∅
  unterminated : Finset ℤ := ∅

namespace IncidentMap
variable (mapping : IncidentMap)

def unsound_situations : Finset ℤ := mapping.cycles ∪ mapping.unterminated

/-- A turn of the loop of `resolve_all`. -/
def enter (situation_id : ℤ) (outcome : Resolution) : IncidentMap where
  incident_of := mapping.incident_of.upsert situation_id outcome.incident fun _ => outcome.incident
  one_hop_of :=
    let one_hop := (merged_into.get situation_id).getD situation_id
    mapping.one_hop_of.upsert situation_id one_hop fun _ => one_hop
  cycles := if outcome.cycle then insert situation_id mapping.cycles else mapping.cycles
  unterminated := if outcome.unterminated then insert situation_id mapping.unterminated else mapping.unterminated

end IncidentMap

def resolve_all (situation_ids : List ℤ) : Except KeyError IncidentMap :=
  situation_ids.foldlM (fun mapping situation_id => do
    let outcome ← resolve merged_into situation_id
    .ok (mapping.enter merged_into situation_id outcome)) {}

/-- Each row beside its incident. -/
def stamp {ρ : Type} (rows : List ρ) (mapping : IncidentMap) (situation_id : ρ → ℤ) : List (ρ × ℤ) :=
  rows.map fun row => (row, (mapping.incident_of.get (situation_id row)).getD (situation_id row))

/-- What a situation resolves to: where its chain ends, the least id on the cycle that the chain comes to, or what
the bound on its length leaves. -/
inductive Resolves (a : ℤ) : Resolution → Prop
  | ended {t : ℤ} : Ends merged_into.get a t → Within merged_into.get MAX_CHAIN_DEPTH a → Resolves a { incident := t }
  | circled {t : ℤ} : IsLeast (circle merged_into.get a) t → Within merged_into.get MAX_CHAIN_DEPTH a →
      Resolves a { incident := t, cycle := true }
  | cut {t : ℤ} : walk merged_into.get MAX_CHAIN_DEPTH a = some t → ¬ Within merged_into.get MAX_CHAIN_DEPTH a →
      Resolves a { incident := t, unterminated := true }

variable {merged_into} {a b entry : ℤ}

theorem around_spec (hcyclic : Cyclic merged_into.get entry) (hwithin : Within merged_into.get MAX_CHAIN_DEPTH entry)
    {n steps : ℕ} (hsteps : n + steps = MAX_CHAIN_DEPTH) {c node : ℤ} {members : Members}
    (h : Trace merged_into.get entry n members.1 c) (hnode : merged_into.get c = some node) (x : ℤ) :
    x ∈ (around merged_into entry steps node members).1 ↔ Leads merged_into.get entry x := by
  induction steps generalizing n c node members with
  | zero =>
    obtain rfl : n = MAX_CHAIN_DEPTH := hsteps
    exact absurd hwithin h.not_within
  | succ steps ih =>
    have hlead : Leads merged_into.get entry node := ⟨n + 1, (walk_succ h.here).trans hnode⟩
    unfold around
    split
    · next hback =>
      refine ⟨fun hx => ?_, h.all fun d hd => ?_⟩
      · obtain ⟨i, -, hi⟩ := (h.mem x).mp hx
        exact ⟨i, hi⟩
      · rw [hnode] at hd
        exact (h.mem d).mpr ⟨0, Nat.zero_le n, by rw [← Option.some.inj hd, hback]; rfl⟩
    · next hne =>
      obtain ⟨next_node, hnext⟩ := (hcyclic.of_leads hlead).way_on
      rw [hnext]
      exact ih (by omega) (h.on hnode (h.fresh hcyclic hnode hne)) hnext

/-- The walk around a cycle comes to each of its ids, and never misses a key. -/
theorem cycle_members_spec (hcyclic : Cyclic merged_into.get entry)
    (hwithin : Within merged_into.get MAX_CHAIN_DEPTH entry) :
    ∃ members, cycle_members merged_into entry = .ok members ∧
      ∀ x, x ∈ members.1 ↔ Leads merged_into.get entry x := by
  obtain ⟨node, hnode⟩ := hcyclic.way_on
  refine ⟨around merged_into entry MAX_CHAIN_DEPTH node ⟨{entry}, Finset.singleton_nonempty entry⟩, ?_, ?_⟩
  · rw [cycle_members, hnode]
  · exact around_spec hcyclic hwithin (Nat.zero_add _) (Trace.start entry) hnode

theorem follow_spec {n steps : ℕ} (hsteps : n + steps = MAX_CHAIN_DEPTH) {seen : Finset ℤ} {current : ℤ}
    (h : Trace merged_into.get a n seen current) :
    ∃ r, follow merged_into steps seen current = .ok r ∧ Resolves merged_into a r := by
  induction steps generalizing n seen current with
  | zero =>
    obtain rfl : n = MAX_CHAIN_DEPTH := hsteps
    exact ⟨_, rfl, .cut h.here h.not_within⟩
  | succ steps ih =>
    unfold follow
    split
    · next hover =>
      have hwithin : Within merged_into.get (n + 1) a := h.within fun c hc => by
        rw [hover] at hc
        cases hc
      exact ⟨_, rfl, .ended ⟨⟨n, h.here⟩, hover⟩ (hwithin.mono (by omega))⟩
    · next nxt hnxt =>
      split
      · next hback =>
        have hwithin : Within merged_into.get MAX_CHAIN_DEPTH a := (h.within fun c hc => by
          rw [hnxt] at hc
          exact Option.some.inj hc ▸ hback).mono (by omega)
        have hlead : Leads merged_into.get a nxt := ⟨n + 1, (walk_succ h.here).trans hnxt⟩
        have hcyclic := h.cyclic hnxt hback
        obtain ⟨members, hmembers, hall⟩ := cycle_members_spec hcyclic (hwithin.of_leads hlead)
        have hcircle : circle merged_into.get a = members.1 := by
          rw [hcyclic.circle_eq hlead]
          exact Set.ext fun x => (hall x).symm
        refine ⟨_, by rw [hmembers]; rfl, .circled ?_ hwithin⟩
        rw [hcircle]
        exact members.1.isLeast_min' members.2
      · next hnew => exact ih (by omega) (h.on hnxt hnew)

theorem resolve_spec (merged_into : Table ℤ ℤ) (a : ℤ) :
    ∃ r, resolve merged_into a = .ok r ∧ Resolves merged_into a r :=
  follow_spec (Nat.zero_add _) (Trace.start a)

namespace Resolves
variable {r q : Resolution}

theorem leads (h : Resolves merged_into a r) : Leads merged_into.get a r.incident := by
  cases h with
  | ended h => exact h.1
  | circled h => exact h.1.1
  | cut h => exact ⟨_, h⟩

/-- Two situations whose chains meet are one incident. -/
theorem same (h : Resolves merged_into a r) (k : Resolves merged_into b q)
    (ha : Within merged_into.get MAX_CHAIN_DEPTH a) (hb : Within merged_into.get MAX_CHAIN_DEPTH b)
    (hmeet : Meet merged_into.get a b) : r.incident = q.incident := by
  cases h with
  | ended h =>
    have hend := hmeet.ends h
    cases k with
    | ended k => exact hend.unique k
    | circled k => exact absurd k.1 (by rw [hend.circle]; exact Set.notMem_empty _)
    | cut _ hlong => exact absurd hb hlong
  | circled h =>
    rw [hmeet.circle] at h
    cases k with
    | ended k => exact absurd h.1 (by rw [k.circle]; exact Set.notMem_empty _)
    | circled k => exact h.unique k
    | cut _ hlong => exact absurd hb hlong
  | cut _ hlong => exact absurd ha hlong

theorem meet (h : Resolves merged_into a r) (k : Resolves merged_into b q) (he : r.incident = q.incident) :
    Meet merged_into.get a b := ⟨r.incident, h.leads, he ▸ k.leads⟩

theorem cycle_iff (h : Resolves merged_into a r) :
    r.cycle = true ↔ Within merged_into.get MAX_CHAIN_DEPTH a ∧ (circle merged_into.get a).Nonempty := by
  cases h with
  | ended h => exact iff_of_false Bool.false_ne_true fun hc => hc.2.ne_empty h.circle
  | circled h hwithin => exact iff_of_true rfl ⟨hwithin, _, h.1⟩
  | cut _ hlong => exact iff_of_false Bool.false_ne_true fun hc => hlong hc.1

theorem unterminated_iff (h : Resolves merged_into a r) :
    r.unterminated = true ↔ ¬ Within merged_into.get MAX_CHAIN_DEPTH a := by
  cases h with
  | ended _ hwithin | circled _ hwithin => exact iff_of_false Bool.false_ne_true (not_not.mpr hwithin)
  | cut _ hlong => exact iff_of_true rfl hlong

end Resolves

/-- What is entered so far is what the situations resolve to. -/
structure IncidentMap.Filed (merged_into : Table ℤ ℤ) (mapping : IncidentMap) (done : List ℤ) : Prop where
  incident : ∀ a ∈ done, ∃ r, resolve merged_into a = .ok r ∧ mapping.incident_of.get a = some r.incident ∧
    (r.cycle = true → a ∈ mapping.cycles) ∧ (r.unterminated = true → a ∈ mapping.unterminated)
  cycles : ∀ a ∈ mapping.cycles, ∃ r, resolve merged_into a = .ok r ∧ r.cycle = true
  unterminated : ∀ a ∈ mapping.unterminated, ∃ r, resolve merged_into a = .ok r ∧ r.unterminated = true

namespace IncidentMap
variable {mapping : IncidentMap} {outcome : Resolution}

theorem mem_enter_cycles : b ∈ (mapping.enter merged_into a outcome).cycles ↔
    b = a ∧ outcome.cycle = true ∨ b ∈ mapping.cycles := by
  unfold enter
  dsimp only
  split <;> simp [*]

theorem mem_enter_unterminated : b ∈ (mapping.enter merged_into a outcome).unterminated ↔
    b = a ∧ outcome.unterminated = true ∨ b ∈ mapping.unterminated := by
  unfold enter
  dsimp only
  split <;> simp [*]

theorem Filed.enter {done : List ℤ} (h : mapping.Filed merged_into done)
    (hout : resolve merged_into a = .ok outcome) :
    (mapping.enter merged_into a outcome).Filed merged_into (done ++ [a]) where
  incident b hb := by
    rw [mem_enter_cycles, mem_enter_unterminated]
    rcases eq_or_ne b a with rfl | hne
    · exact ⟨outcome, hout, Table.get_upsert_self _ _ _ _, fun hc => .inl ⟨rfl, hc⟩, fun hu => .inl ⟨rfl, hu⟩⟩
    · have hb : b ∈ done := (List.mem_append.mp hb).resolve_right fun hb => hne (List.mem_singleton.mp hb)
      obtain ⟨r, hr, hget, hc, hu⟩ := h.incident b hb
      exact ⟨r, hr, (Table.get_upsert_of_ne _ _ _ _ _ hne).trans hget, fun h => .inr (hc h), fun h => .inr (hu h)⟩
  cycles b hb := by
    rcases mem_enter_cycles.mp hb with ⟨rfl, hc⟩ | hb
    · exact ⟨outcome, hout, hc⟩
    · exact h.cycles b hb
  unterminated b hb := by
    rcases mem_enter_unterminated.mp hb with ⟨rfl, hu⟩ | hb
    · exact ⟨outcome, hout, hu⟩
    · exact h.unterminated b hb

theorem Filed.found {ids : List ℤ} (h : mapping.Filed merged_into ids) (ha : a ∈ ids) :
    ∃ r, Resolves merged_into a r ∧ mapping.incident_of.get a = some r.incident ∧
      (a ∈ mapping.cycles ↔ r.cycle = true) ∧ (a ∈ mapping.unterminated ↔ r.unterminated = true) := by
  obtain ⟨r, hr, hget, hc, hu⟩ := h.incident a ha
  obtain ⟨r', hr', hres⟩ := resolve_spec merged_into a
  obtain rfl := Except.ok.inj (hr.symm.trans hr')
  refine ⟨r, hres, hget, ⟨fun hin => ?_, hc⟩, fun hin => ?_, hu⟩
  · obtain ⟨q, hq, hcycle⟩ := h.cycles a hin
    exact Except.ok.inj (hr.symm.trans hq) ▸ hcycle
  · obtain ⟨q, hq, hunterminated⟩ := h.unterminated a hin
    exact Except.ok.inj (hr.symm.trans hq) ▸ hunterminated

end IncidentMap

theorem resolve_all_spec (merged_into : Table ℤ ℤ) (ids : List ℤ) :
    ∃ mapping, resolve_all merged_into ids = .ok mapping ∧ mapping.Filed merged_into ids := by
  have hrun : ∀ (rest done : List ℤ) (mapping : IncidentMap), mapping.Filed merged_into done →
      ∃ out, rest.foldlM (fun mapping situation_id => do
        let outcome ← resolve merged_into situation_id
        .ok (mapping.enter merged_into situation_id outcome)) mapping = .ok out ∧
        out.Filed merged_into (done ++ rest) := by
    intro rest
    induction rest with
    | nil => exact fun done mapping h => ⟨mapping, rfl, (List.append_nil done).symm ▸ h⟩
    | cons a rest ih =>
      intro done mapping h
      obtain ⟨outcome, hout, -⟩ := resolve_spec merged_into a
      obtain ⟨out, hrest, hfiled⟩ := ih (done ++ [a]) _ (h.enter hout)
      refine ⟨out, ?_, by rwa [List.append_assoc] at hfiled⟩
      rw [List.foldlM_cons, hout]
      exact hrest
  refine hrun ids [] {} ⟨fun a ha => absurd ha List.not_mem_nil, fun a ha => ?_, fun a ha => ?_⟩
  · exact absurd ha (Finset.notMem_empty a)
  · exact absurd ha (Finset.notMem_empty a)

/-- Each situation of a corpus has an incident, which its chain leads to. Where the chain comes to no more than
`MAX_CHAIN_DEPTH` situations this is the one where it ends, or the least on its cycle, and two such situations have
the same incident where their chains meet. The others are reported as unterminated, each under the situation that
`MAX_CHAIN_DEPTH` hops lead to; and no two situations whose chains never meet have the same incident. -/
theorem merged_one_incident (merged_into : Table ℤ ℤ) (ids : List ℤ) :
    ∃ mapping, resolve_all merged_into ids = .ok mapping ∧ ∃ incident : ℤ → ℤ,
      (∀ {ρ : Type} (situation_id : ρ → ℤ) (rows : List ρ), (∀ row ∈ rows, situation_id row ∈ ids) →
        stamp rows mapping situation_id = rows.map fun row => (row, incident (situation_id row))) ∧
      (∀ a ∈ ids, Leads merged_into.get a (incident a) ∧
        (Within merged_into.get MAX_CHAIN_DEPTH a →
          (∀ t, Ends merged_into.get a t → incident a = t) ∧
          ((circle merged_into.get a).Nonempty → IsLeast (circle merged_into.get a) (incident a))) ∧
        (¬ Within merged_into.get MAX_CHAIN_DEPTH a → walk merged_into.get MAX_CHAIN_DEPTH a = some (incident a)) ∧
        (a ∈ mapping.cycles ↔ Within merged_into.get MAX_CHAIN_DEPTH a ∧ (circle merged_into.get a).Nonempty) ∧
        (a ∈ mapping.unsound_situations ↔ (circle merged_into.get a).Nonempty ∨
          ¬ Within merged_into.get MAX_CHAIN_DEPTH a)) ∧
      ∀ a ∈ ids, ∀ b ∈ ids, (¬ Meet merged_into.get a b → incident a ≠ incident b) ∧
        (Within merged_into.get MAX_CHAIN_DEPTH a → Within merged_into.get MAX_CHAIN_DEPTH b →
          Meet merged_into.get a b → incident a = incident b) := by
  obtain ⟨mapping, hall, hfiled⟩ := resolve_all_spec merged_into ids
  have hincident : ∀ a ∈ ids, ∃ r, Resolves merged_into a r ∧ (mapping.incident_of.get a).getD a = r.incident ∧
      (a ∈ mapping.cycles ↔ r.cycle = true) ∧ (a ∈ mapping.unterminated ↔ r.unterminated = true) := by
    intro a ha
    obtain ⟨r, hres, hget, hrest⟩ := hfiled.found ha
    exact ⟨r, hres, by rw [hget]; rfl, hrest⟩
  refine ⟨mapping, hall, fun a => (mapping.incident_of.get a).getD a, fun _ _ _ => rfl, fun a ha => ?_,
    fun a ha b hb => ?_⟩
  · obtain ⟨r, hres, hi, hc, hu⟩ := hincident a ha
    dsimp only
    rw [hi, IncidentMap.unsound_situations, Finset.mem_union, hc, hu, hres.cycle_iff, hres.unterminated_iff]
    refine ⟨hres.leads, fun hwithin => ⟨fun t ht => ?_, fun hne => ?_⟩, fun hlong => ?_, Iff.rfl, by tauto⟩
    · cases hres with
      | ended h => exact h.unique ht
      | circled h => exact absurd h.1 (by rw [ht.circle]; exact Set.notMem_empty _)
      | cut _ hlong => exact absurd hwithin hlong
    · cases hres with
      | ended h => exact absurd h.circle hne.ne_empty
      | circled h => exact h
      | cut _ hlong => exact absurd hwithin hlong
    · cases hres with
      | ended _ hwithin | circled _ hwithin => exact absurd hwithin hlong
      | cut h => exact h
  · obtain ⟨r, hr, hi, -⟩ := hincident a ha
    obtain ⟨q, hq, hj, -⟩ := hincident b hb
    dsimp only
    rw [hi, hj]
    exact ⟨fun hno he => hno (hr.meet hq he), hr.same hq⟩

/-- The first of a chain of sixty-five merges is another incident than the second. -/
theorem merged_two_incidents : ¬ ∀ (merged_into : Table ℤ ℤ) (a t : ℤ), Ends merged_into.get a t →
    resolve merged_into a = .ok { incident := t } := by
  intro h
  let chain : Table ℤ ℤ := ⟨(List.range 65).map fun i => ((i : ℤ), (i : ℤ) + 1), by decide +kernel⟩
  have hend : Ends chain.get 0 65 := ⟨⟨65, by decide +kernel⟩, by decide +kernel⟩
  exact absurd (h chain 0 65 hend) (by decide +kernel)

end NetCoreNoc.Dataset
