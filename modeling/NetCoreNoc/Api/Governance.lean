import Mathlib
import NetCoreNoc.Runs

/-! The stored governance policies as requests read them (`api/governance_cache.py`,
`Perimeter.security` and `scope_for`): one cache, refreshed by the load of every request, a load being
suspended wherever it waits for the database. -/
namespace NetCoreNoc.Api

inductive PolicyKind where
  | rbac
  | scope
  deriving DecidableEq, Repr

/-- What a stored document parses to. -/
structure Policy (P : Type) where
  rules : P
  malformed : Bool := false
  reason : String := ""
  deriving DecidableEq

/-- The rows of `governance_active`. -/
abbrev ActiveIds := PolicyKind → Option Nat

structure GovernancePolicies (P : Type) where
  /-- `_capability_id` and `_scope_id` -/
  policy_id : ActiveIds := fun _ => none
  /-- `_capability` and `_scope` -/
  policy : PolicyKind → Option (Policy P) := fun _ => none
  pending_fallbacks : List (PolicyKind × String) := []

/-- How far a request is. -/
inductive Phase where
  /-- it waits for its snapshot -/
  | opening
  /-- its snapshot is taken, with these ids, and has not reached it -/
  | reading (active : ActiveIds)
  /-- it waits for a document; what kinds are left after it -/
  | fetching (active : ActiveIds) (kind : PolicyKind) (rest : List PolicyKind)
  /-- its load is over: it decides, and may decide again -/
  | loaded

structure Request where
  /-- what was active when its load began, by its place in the history -/
  since : Nat
  phase : Phase

/-- Past its load of a kind. -/
def Request.holds (r : Request) (kind : PolicyKind) : Bool := match r.phase with
  | .opening | .reading _ => false
  | .fetching _ waiting rest => kind ≠ waiting && kind ∉ rest
  | .loaded => true

/-- The cache, the requests under way, and all that was ever active: `history now` is in force. -/
structure Perimeter (P : Type) where
  governance : GovernancePolicies P := {}
  requests : Nat → Option Request := fun _ => none
  history : Nat → ActiveIds := fun _ _ => none
  now : Nat := 0

inductive RequestOp where
  /-- an admin sets, rolls back or clears what is active -/
  | activate (kind : PolicyKind) (policy_id : Option Nat)
  | arrive (r : Nat)
  /-- the database takes the snapshot of a request and reads the active ids in it -/
  | snapshot (r : Nat)
  /-- what a request waits for has come -/
  | resume (r : Nat)
  /-- the first fallback in the queue is audited -/
  | flush
  | finish (r : Nat)

section
variable {P : Type} (parse : PolicyKind → String → Policy P) (document : Nat → String)

/-- The policy an id stands for. A stored row never changes. -/
def policyOf (kind : PolicyKind) (policy_id : Option Nat) : Option (Policy P) :=
  (policy_id.filter (· ≠ 0)).map fun id => parse kind (document id)

/-- `_load_kind`, once it has the document. -/
def GovernancePolicies.install (g : GovernancePolicies P) (kind : PolicyKind) (policy_id : Option Nat) :
    GovernancePolicies P :=
  let policy := policyOf parse document kind policy_id
  { policy_id := Function.update g.policy_id kind policy_id
    policy := Function.update g.policy kind policy
    pending_fallbacks := match policy with
      | some p => if p.malformed then g.pending_fallbacks ++ [(kind, p.reason)] else g.pending_fallbacks
      | none => g.pending_fallbacks }

/-- A load goes on without a pause until it needs a document that is not the cached one. -/
def GovernancePolicies.advance (active : ActiveIds) :
    List PolicyKind → GovernancePolicies P → GovernancePolicies P × Phase
  | [], g => (g, .loaded)
  | kind :: rest, g =>
    if active kind = g.policy_id kind then advance active rest g
    else match active kind with
      | none => advance active rest (g.install parse document kind none)
      | some _ => (g, .fetching active kind rest)

namespace Perimeter
variable (s : Perimeter P)

/-- `load`, from where a request waits to where it waits next. -/
def load (r : Nat) (req : Request) : Perimeter P :=
  let (governance, phase) := match req.phase with
    | .reading active => s.governance.advance parse document active [.rbac, .scope]
    | .fetching active kind rest =>
      (s.governance.install parse document kind (active kind)).advance parse document active rest
    | phase => (s.governance, phase)
  { s with governance := governance, requests := Function.update s.requests r (some { req with phase := phase }) }

def step : RequestOp → Perimeter P
  | .activate kind policy_id => { s with
      history := Function.update s.history (s.now + 1) (Function.update (s.history s.now) kind policy_id)
      now := s.now + 1 }
  | .arrive r => match s.requests r with
    | none => { s with requests := Function.update s.requests r (some ⟨s.now, .opening⟩) }
    | some _ => s
  | .snapshot r => match s.requests r with
    | some ⟨since, .opening⟩ =>
      { s with requests := Function.update s.requests r (some ⟨since, .reading (s.history s.now)⟩) }
    | _ => s
  | .resume r => match s.requests r with
    | some req => s.load parse document r req
    | none => s
  | .flush => { s with governance := { s.governance with pending_fallbacks := s.governance.pending_fallbacks.tail } }
  | .finish r => { s with requests := Function.update s.requests r none }

/-- A policy of the kind was in force at or after a place in the history. -/
def ActiveSince (since : Nat) (kind : PolicyKind) (policy_id : Option Nat) : Prop :=
  ∃ j < s.now + 1, since ≤ j ∧ s.history j kind = policy_id

instance (since : Nat) (kind : PolicyKind) (policy_id : Option Nat) :
    Decidable (s.ActiveSince since kind policy_id) := by
  unfold ActiveSince
  infer_instance

end Perimeter

/-- What a load that goes on with these kinds puts into the cache before it waits again. -/
def clears (active cached : ActiveIds) : List PolicyKind → List PolicyKind
  | [] => []
  | kind :: rest =>
    if active kind = cached kind then clears active cached rest
    else if active kind = none then kind :: clears active cached rest
    else []

/-- What a request that goes on puts into the cache. -/
def Perimeter.puts (s : Perimeter P) (req : Request) : List (PolicyKind × Option Nat) := match req.phase with
  | .reading active => (clears active s.governance.policy_id [.rbac, .scope]).map (·, none)
  | .fetching active kind rest =>
    (kind, active kind) :: (clears active s.governance.policy_id rest).map (·, none)
  | _ => []

/-- A load puts no policy into the cache that was replaced before a request past its own load of the
kind began. -/
def Perimeter.Timely (s : Perimeter P) : RequestOp → Prop
  | .resume r => ∀ req ∈ s.requests r, ∀ put ∈ s.puts req, ∀ other ≠ r, ∀ req' ∈ s.requests other,
      req'.holds put.1 = true → s.ActiveSince req'.since put.1 put.2
  | _ => True

/-- The ids a load goes by, once it has its snapshot. -/
def Phase.active : Phase → Option ActiveIds
  | .reading active | .fetching active _ _ => some active
  | _ => none

/-- The kinds whose load a request has not finished. -/
def Phase.left : Phase → List PolicyKind
  | .opening | .reading _ => [.rbac, .scope]
  | .fetching _ kind rest => kind :: rest
  | .loaded => []

theorem Request.holds_iff (r : Request) (kind : PolicyKind) : r.holds kind = true ↔ kind ∉ r.phase.left := by
  cases hphase : r.phase <;> cases kind <;> simp [Request.holds, Phase.left, hphase]

/-- The cache has the policies its ids stand for. A load under way goes by what was in force at or after
its beginning, and so does the cache, for the kinds that the load is past. -/
structure Perimeter.Fresh (s : Perimeter P) : Prop where
  policy : ∀ k, s.governance.policy k = policyOf parse document k (s.governance.policy_id k)
  past : ∀ r req, s.requests r = some req → req.since ≤ s.now
  left : ∀ r req, s.requests r = some req → req.phase.left.Nodup
  read : ∀ r req active, s.requests r = some req → req.phase.active = some active →
    ∀ k, s.ActiveSince req.since k (active k)
  held : ∀ r req k, s.requests r = some req → k ∉ req.phase.left →
    s.ActiveSince req.since k (s.governance.policy_id k)

private theorem both_nodup : ([.rbac, .scope] : List PolicyKind).Nodup := by decide

private theorem mem_both (k : PolicyKind) : k ∈ [PolicyKind.rbac, PolicyKind.scope] := by cases k <;> decide

section
variable {parse document}

theorem GovernancePolicies.install_policy {g : GovernancePolicies P}
    (h : ∀ k, g.policy k = policyOf parse document k (g.policy_id k)) (kind : PolicyKind) (id : Option Nat) :
    ∀ k, (g.install parse document kind id).policy k =
      policyOf parse document k ((g.install parse document kind id).policy_id k) := by
  intro k
  simp only [install]
  by_cases hk : k = kind
  · subst hk
    simp
  · simp [hk, h k]

theorem clears_congr {active cached cached' : ActiveIds} {kinds : List PolicyKind}
    (h : ∀ k ∈ kinds, cached k = cached' k) : clears active cached kinds = clears active cached' kinds := by
  induction kinds with
  | nil => rfl
  | cons kind rest ih =>
    simp only [clears, h kind List.mem_cons_self, ih fun k hk => h k (List.mem_cons_of_mem _ hk)]

/-- What a load that goes on with some kinds does to the cache. -/
theorem GovernancePolicies.advance_spec (active : ActiveIds) (kinds : List PolicyKind)
    (g : GovernancePolicies P) (hkinds : kinds.Nodup)
    (hpolicy : ∀ k, g.policy k = policyOf parse document k (g.policy_id k)) :
    let (g', phase) := g.advance parse document active kinds
    (∀ k, g'.policy k = policyOf parse document k (g'.policy_id k)) ∧
    (∀ k ∉ kinds, g'.policy_id k = g.policy_id k) ∧
    (∀ k ∈ kinds, k ∉ phase.left → g'.policy_id k = active k) ∧
    (∀ k, g'.policy_id k = g.policy_id k ∨
      g'.policy_id k = none ∧ k ∈ clears active g.policy_id kinds) ∧
    phase.left <:+ kinds ∧ ∀ ids ∈ phase.active, ids = active := by
  induction kinds generalizing g with
  | nil => simp [advance, Phase.left, Phase.active, hpolicy]
  | cons kind rest ih =>
    obtain ⟨hkind, hrest⟩ := List.nodup_cons.mp hkinds
    by_cases hcached : active kind = g.policy_id kind
    · obtain ⟨h1, h2, h3, h4, h5, h6⟩ := ih g hrest hpolicy
      simp only [advance, clears, if_pos hcached]
      refine ⟨h1, fun k hk => h2 k fun h => hk (List.mem_cons_of_mem _ h), fun k hk hleft => ?_, h4,
        h5.trans (List.suffix_cons _ _), h6⟩
      rcases List.mem_cons.mp hk with rfl | hk
      · rw [h2 k hkind, hcached]
      · exact h3 k hk hleft
    · cases hactive : active kind with
      | some id =>
        rw [hactive] at hcached
        simp only [advance, hactive, if_neg hcached]
        refine ⟨hpolicy, fun _ _ => trivial, fun k hk hleft => absurd hk hleft, fun _ => .inl trivial,
          List.suffix_rfl, fun ids hids => ?_⟩
        exact (Option.some.inj hids).symm
      | none =>
        rw [hactive] at hcached
        obtain ⟨h1, h2, h3, h4, h5, h6⟩ := ih (g.install parse document kind none) hrest
          (install_policy hpolicy kind none)
        have hother : ∀ k ≠ kind, (g.install parse document kind none).policy_id k = g.policy_id k :=
          fun k hk => Function.update_of_ne hk _ _
        have hself : (g.install parse document kind none).policy_id kind = none := Function.update_self ..
        have hclears : clears active (g.install parse document kind none).policy_id rest =
            clears active g.policy_id rest :=
          clears_congr fun k hk => hother k fun he => hkind (he ▸ hk)
        rw [hclears] at h4
        simp only [advance, clears, hactive, if_neg hcached, if_true]
        refine ⟨h1, fun k hk => ?_, fun k hk hleft => ?_, fun k => ?_, h5.trans (List.suffix_cons _ _), h6⟩
        · rw [List.mem_cons, not_or] at hk
          exact (h2 k hk.2).trans (hother k hk.1)
        · rcases List.mem_cons.mp hk with rfl | hk
          · rw [h2 k hkind, hself, hactive]
          · exact h3 k hk hleft
        · by_cases hk : k = kind
          · subst hk
            exact .inr ⟨(h2 k hkind).trans hself, List.mem_cons_self⟩
          · exact (h4 k).imp (fun h => h.trans (hother k hk))
              fun h => ⟨h.1, List.mem_cons_of_mem _ h.2⟩

namespace Perimeter
variable {s : Perimeter P}

theorem activeSince_mono {t : Perimeter P} (hnow : s.now ≤ t.now)
    (hhistory : ∀ j ≤ s.now, t.history j = s.history j) {since : Nat} {k : PolicyKind} {id : Option Nat}
    (h : s.ActiveSince since k id) : t.ActiveSince since k id := by
  obtain ⟨j, hj, hsince, rfl⟩ := h
  exact ⟨j, by omega, hsince, by rw [hhistory j (by omega)]⟩

theorem fresh_activate (h : s.Fresh parse document) (kind : PolicyKind) (id : Option Nat) :
    (s.step parse document (.activate kind id)).Fresh parse document := by
  have hmono {since : Nat} {k : PolicyKind} {id' : Option Nat} (hs : s.ActiveSince since k id') :
      (s.step parse document (.activate kind id)).ActiveSince since k id' :=
    activeSince_mono (Nat.le_succ _) (fun j hj => Function.update_of_ne (by omega) _ _) hs
  exact ⟨h.policy, fun r req hr => Nat.le_succ_of_le (h.past r req hr), h.left,
    fun r req active hr ha k => hmono (h.read r req active hr ha k),
    fun r req k hr hk => hmono (h.held r req k hr hk)⟩

/-- A request that moves on without touching the cache. -/
theorem fresh_moved (h : s.Fresh parse document) {r : Nat} {req : Request} (hsince : req.since ≤ s.now)
    (hleft : req.phase.left.Nodup)
    (hread : ∀ active, req.phase.active = some active → ∀ k, s.ActiveSince req.since k (active k))
    (hheld : ∀ k ∉ req.phase.left, s.ActiveSince req.since k (s.governance.policy_id k)) :
    ({ s with requests := Function.update s.requests r (some req) } : Perimeter P).Fresh parse document := by
  have hcase {r' : Nat} {req' : Request} (hr : Function.update s.requests r (some req) r' = some req') :
      req' = req ∨ s.requests r' = some req' := by
    rw [Function.update_apply] at hr
    split at hr
    · exact .inl (Option.some.inj hr).symm
    · exact .inr hr
  refine ⟨h.policy, fun r' req' hr => ?_, fun r' req' hr => ?_, fun r' req' active hr => ?_,
    fun r' req' k hr => ?_⟩
  · rcases hcase hr with rfl | hr
    · exact hsince
    · exact h.past r' req' hr
  · rcases hcase hr with rfl | hr
    · exact hleft
    · exact h.left r' req' hr
  · rcases hcase hr with rfl | hr
    · exact hread active
    · exact h.read r' req' active hr
  · rcases hcase hr with rfl | hr
    · exact hheld k
    · exact h.held r' req' k hr

/-- A load that goes on. -/
theorem fresh_load (h : s.Fresh parse document) {r : Nat} {req : Request} (hr : s.requests r = some req)
    (ht : s.Timely (.resume r)) : (s.load parse document r req).Fresh parse document := by
  -- the cache a load goes on with, the kinds before it, and what it has put in until then
  have key : ∀ (g : GovernancePolicies P) (active : ActiveIds) (kinds : List PolicyKind),
      kinds.Nodup → (∀ k, s.ActiveSince req.since k (active k)) →
      (∀ k, g.policy k = policyOf parse document k (g.policy_id k)) →
      (∀ k ∉ kinds, s.ActiveSince req.since k (g.policy_id k)) →
      (∀ r' ≠ r, ∀ req', s.requests r' = some req' → ∀ k ∉ req'.phase.left,
        s.ActiveSince req'.since k (g.policy_id k)) →
      (∀ r' ≠ r, ∀ req', s.requests r' = some req' → ∀ k ∈ clears active g.policy_id kinds,
        k ∉ req'.phase.left → s.ActiveSince req'.since k none) →
      ({ s with
        governance := (g.advance parse document active kinds).1
        requests := Function.update s.requests r
          (some { req with phase := (g.advance parse document active kinds).2 }) } :
        Perimeter P).Fresh parse document := by
    intro g active kinds hkinds hactive hpolicy hown hothers hclears
    have hspec := g.advance_spec active kinds hkinds hpolicy
    generalize g.advance parse document active kinds = out at hspec
    obtain ⟨g', phase⟩ := out
    obtain ⟨h1, h2, h3, h4, h5, h6⟩ := hspec
    refine ⟨h1, fun r' req' hr' => ?_, fun r' req' hr' => ?_, fun r' req' ids hr' hids => ?_,
      fun r' req' k hr' hk => ?_⟩ <;> simp only [Function.update_apply] at hr' <;> split at hr'
    · obtain rfl := Option.some.inj hr'
      exact h.past r req hr
    · exact h.past r' req' hr'
    · obtain rfl := Option.some.inj hr'
      exact hkinds.sublist h5.sublist
    · exact h.left r' req' hr'
    · obtain rfl := Option.some.inj hr'
      obtain rfl := h6 ids hids
      exact hactive
    · exact h.read r' req' ids hr' hids
    · obtain rfl := Option.some.inj hr'
      change s.ActiveSince req.since k (g'.policy_id k)
      by_cases hin : k ∈ kinds
      · rw [h3 k hin hk]
        exact hactive k
      · rw [h2 k hin]
        exact hown k hin
    · rename_i hne
      change s.ActiveSince req'.since k (g'.policy_id k)
      rcases h4 k with he | ⟨he, hin⟩
      · rw [he]
        exact hothers r' hne req' hr' k hk
      · rw [he]
        exact hclears r' hne req' hr' k hin hk
  have hput : ∀ put ∈ s.puts req, ∀ r' ≠ r, ∀ req', s.requests r' = some req' → put.1 ∉ req'.phase.left →
      s.ActiveSince req'.since put.1 put.2 := fun put hp r' hne req' hr' hk =>
    ht req hr put hp r' hne req' hr' ((req'.holds_iff put.1).mpr hk)
  unfold load
  cases hphase : req.phase with
  | opening =>
    have hsince : (⟨req.since, .opening⟩ : Request).since ≤ s.now := h.past r req hr
    exact fresh_moved h hsince both_nodup (fun _ ha => by simp [Phase.active] at ha)
      fun k hk => absurd (mem_both k) hk
  | loaded =>
    have hsince : (⟨req.since, .loaded⟩ : Request).since ≤ s.now := h.past r req hr
    exact fresh_moved h hsince List.nodup_nil (fun _ ha => by simp [Phase.active] at ha)
      fun k hk => h.held r req k hr (by rwa [hphase])
  | reading active =>
    refine key s.governance active _ both_nodup (h.read r req active hr (by rw [hphase]; rfl)) h.policy
      (fun k hk => absurd (mem_both k) hk) (fun r' _ req' hr' k hk => h.held r' req' k hr' hk) ?_
    intro r' hne req' hr' k hk hleft
    exact hput (k, none) (by simp [puts, hphase, hk]) r' hne req' hr' hleft
  | fetching active kind rest =>
    have hread := h.read r req active hr (by rw [hphase]; rfl)
    have hnodup : (kind :: rest).Nodup := by simpa [hphase, Phase.left] using h.left r req hr
    obtain ⟨hkind, hrest⟩ := List.nodup_cons.mp hnodup
    have hself : (s.governance.install parse document kind (active kind)).policy_id kind = active kind :=
      Function.update_self ..
    have hother : ∀ k ≠ kind, (s.governance.install parse document kind (active kind)).policy_id k =
        s.governance.policy_id k := fun k hk => Function.update_of_ne hk _ _
    refine key _ active rest hrest hread (GovernancePolicies.install_policy h.policy kind _)
      (fun k hk => ?_) (fun r' hne req' hr' k hk => ?_) fun r' hne req' hr' k hk hleft => ?_
    · by_cases he : k = kind
      · rw [he, hself]
        exact hread kind
      · rw [hother k he]
        exact h.held r req k hr (by simp [hphase, Phase.left, he, hk])
    · by_cases he : k = kind
      · subst he
        rw [hself]
        exact hput (k, active k) (by simp [puts, hphase]) r' hne req' hr' hk
      · rw [hother k he]
        exact h.held r' req' k hr' hk
    · rw [clears_congr fun k hk => hother k fun he => hkind (he ▸ hk)] at hk
      exact hput (k, none) (by simp [puts, hphase, hk]) r' hne req' hr' hleft

theorem fresh_step (h : s.Fresh parse document) (op : RequestOp) (ht : s.Timely op) :
    (s.step parse document op).Fresh parse document := by
  cases op with
  | activate kind id => exact fresh_activate h kind id
  | arrive r =>
    simp only [step]
    split
    · exact fresh_moved h le_rfl both_nodup (fun _ ha => by simp [Phase.active] at ha)
        fun k hk => absurd (mem_both k) hk
    · exact h
  | snapshot r =>
    simp only [step]
    split
    · rename_i since hr
      have hpast : since ≤ s.now := h.past r _ hr
      refine fresh_moved h hpast both_nodup (fun active ha k => ?_) fun k hk => absurd (mem_both k) hk
      obtain rfl := Option.some.inj ha
      exact ⟨s.now, Nat.lt_succ_self _, hpast, rfl⟩
    · exact h
  | resume r =>
    simp only [step]
    cases hr : s.requests r with
    | none => exact h
    | some req => exact fresh_load h hr ht
  | flush => exact ⟨h.policy, h.past, h.left, h.read, h.held⟩
  | finish r =>
    have hsome {r' : Nat} {req : Request} (hr : Function.update s.requests r none r' = some req) :
        s.requests r' = some req := by
      rw [Function.update_apply] at hr
      split at hr
      · exact absurd hr (by simp)
      · exact hr
    exact ⟨h.policy, fun r' req hr => h.past r' req (hsome hr), fun r' req hr => h.left r' req (hsome hr),
      fun r' req active hr => h.read r' req active (hsome hr), fun r' req k hr => h.held r' req k (hsome hr)⟩

theorem fresh_start (parse : PolicyKind → String → Policy P) (document : Nat → String) :
    ({} : Perimeter P).Fresh parse document := by
  have hnone {r : Nat} {req : Request} : ¬ ({} : Perimeter P).requests r = some req := fun hr => by
    exact absurd hr (by simp)
  exact ⟨fun _ => rfl, fun _ _ hr => absurd hr hnone, fun _ _ hr => absurd hr hnone,
    fun _ _ _ hr => absurd hr hnone, fun _ _ _ hr => absurd hr hnone⟩

end Perimeter

/-- Along every run whose loads are timely, the policy of each kind that a request finds in the cache, at
any time between its load and its end, was in force at or after the beginning of its load. -/
theorem run_fresh (parse : PolicyKind → String → Policy P) (document : Nat → String) (ops : List RequestOp)
    (h : Runs.Meets (Perimeter.step parse document) Perimeter.Timely {} ops) :
    let s := Runs.run (Perimeter.step parse document) ({} : Perimeter P) ops
    ∀ r req kind, s.requests r = some req → req.phase = .loaded → ∃ j, req.since ≤ j ∧ j ≤ s.now ∧
      s.governance.policy kind = policyOf parse document kind (s.history j kind) := by
  intro s r req kind hr hloaded
  have hstep : ∀ (t : Perimeter P) (op : RequestOp), t.Fresh parse document → t.Timely op →
      (t.step parse document op).Fresh parse document := fun t op ht hop => Perimeter.fresh_step ht op hop
  have hfresh : s.Fresh parse document := Runs.run_invariant hstep {} ops (Perimeter.fresh_start ..) h
  obtain ⟨j, hj, hsince, he⟩ := hfresh.held r req kind hr (by simp [hloaded, Phase.left])
  exact ⟨j, hsince, by omega, by rw [hfresh.policy, he]⟩

end
end

def unparsed (_ : PolicyKind) (document : String) : Policy String := { rules := document }

def numbered (policy_id : Nat) : String := "policy " ++ toString policy_id

/-- Two loads under the first policy, one within the other; a third, before the second has decided, finds the policy that
has replaced the cached one. -/
def replaced : List RequestOp :=
  [.activate .rbac (some 1), .arrive 1, .snapshot 1, .resume 1, .arrive 2, .snapshot 2, .resume 2, .resume 2, .resume 1,
    .finish 1, .activate .rbac (some 2), .arrive 3, .snapshot 3, .resume 3, .resume 3]

private theorem timely_beside {P : Type} {s : Perimeter P} {r : Nat} (o : Nat)
    (hnone : ∀ other, other ≠ r → other ≠ o → s.requests other = none)
    (ho : ∀ req ∈ s.requests r, ∀ put ∈ s.puts req, o ≠ r → ∀ req' ∈ s.requests o,
      req'.holds put.1 = true → s.ActiveSince req'.since put.1 put.2) : s.Timely (.resume r) := by
  intro req hreq put hput other hne req' hreq' hholds
  rcases eq_or_ne other o with rfl | hother
  · exact ho req hreq put hput hne req' hreq' hholds
  · rw [hnone other hne hother] at hreq'
    exact absurd hreq' (by simp)

/-- The second and the third request go by a policy that was in force since they began. -/
theorem run_fresh_replaced :
    let s := Runs.run (Perimeter.step unparsed numbered) ({} : Perimeter String) replaced
    (∃ j, 1 ≤ j ∧ j ≤ s.now ∧ s.governance.policy .rbac = policyOf unparsed numbered .rbac (s.history j .rbac)) ∧
    ∃ j, 2 ≤ j ∧ j ≤ s.now ∧ s.governance.policy .rbac = policyOf unparsed numbered .rbac (s.history j .rbac) := by
  intro s
  have htimely : Runs.Meets (Perimeter.step unparsed numbered) Perimeter.Timely {} replaced := by
    refine ⟨trivial, trivial, trivial, timely_beside 2 ?_ ?_, trivial, trivial, timely_beside 1 ?_ ?_,
      timely_beside 1 ?_ ?_, timely_beside 2 ?_ ?_, trivial, trivial, trivial, trivial, timely_beside 2 ?_ ?_,
      timely_beside 2 ?_ ?_, trivial⟩
    all_goals first
      | decide
      | intro other h h'
        rcases eq_or_ne other 1 with rfl | h₁
        · first | contradiction | rfl
        · simp [Perimeter.step, Perimeter.load, h, h', h₁]
  exact ⟨run_fresh unparsed numbered replaced htimely 2 ⟨1, .loaded⟩ .rbac rfl rfl,
    run_fresh unparsed numbered replaced htimely 3 ⟨2, .loaded⟩ .rbac rfl rfl⟩

/-- A slow load: its document comes when a newer one is in the cache. -/
def overtaken : List RequestOp :=
  [.activate .rbac (some 1), .arrive 1, .snapshot 1, .resume 1, .activate .rbac (some 2),
    .arrive 2, .snapshot 2, .resume 2, .resume 2, .resume 1]

/-- It puts the old policy back, and the second request, which began under the new one, decides by it. -/
theorem overtaken_stale : ¬ ∀ (ops : List RequestOp),
    let s := Runs.run (Perimeter.step unparsed numbered) ({} : Perimeter String) ops
    ∀ r req kind, s.requests r = some req → req.phase = .loaded → ∃ j, req.since ≤ j ∧ j ≤ s.now ∧
      s.governance.policy kind = policyOf unparsed numbered kind (s.history j kind) := by
  intro h
  obtain ⟨j, hsince, hnow, he⟩ := h overtaken 2 ⟨2, .loaded⟩ .rbac rfl rfl
  change 2 ≤ j at hsince
  change j ≤ 2 at hnow
  obtain rfl : j = 2 := by omega
  exact absurd he (by decide)

end NetCoreNoc.Api
