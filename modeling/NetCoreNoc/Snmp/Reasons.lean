import Mathlib
import NetCoreNoc.Snmp.Receiver

/-! The reasons of refusals: none of them is `decoder-failed`, which stands for a datagram that nobody could read. -/
namespace NetCoreNoc.Snmp

/-- The reasons are told from that one by their first letters. -/
def Lettered (reason : String) : Prop := reason.toList.head? ≠ some 'd'

instance (reason : String) : Decidable (Lettered reason) := inferInstanceAs (Decidable (_ ≠ _))

variable {reason : String}

theorem Lettered.ne (h : Lettered reason) : reason ≠ "decoder-failed" :=
  fun he => absurd (he ▸ h) (by decide)

/-- A refusal, where there is one, has such a reason. -/
def Named {α : Type} (x : Except String α) : Prop := ∀ reason, x = .error reason → Lettered reason

section
variable {α β : Type} {x y : Except String α} {f : α → Except String β}

theorem named_ok (a : α) : Named (.ok a : Except String α) := nofun

theorem named_error (h : Lettered reason) : Named (.error reason : Except String α) :=
  fun _ he => Except.error.inj he ▸ h

theorem named_bind (hx : Named x) (hf : ∀ a, Named (f a)) : Named (x >>= f) := by
  cases x with
  | ok a => exact hf a
  | error reason => exact named_error (hx reason rfl)

theorem named_ite {c : Prop} [Decidable c] (hx : Named x) (hy : Named y) : Named (if c then x else y) := by
  split
  · exact hx
  · exact hy

/-- `if c: raise`, and what follows. -/
theorem named_guard {c : Prop} [Decidable c] {f : Unit → Except String α} (h : Lettered reason)
    (hf : Named (f ())) : Named (if c then (throw reason : Except String Unit) >>= f else f ()) :=
  named_ite (named_error h) hf

theorem named_malformed (x : Except BerError α) : Named (malformed x) := by
  cases x with
  | ok a => exact named_ok a
  | error e => exact named_error (by decide)

end

theorem named_parseHeader (data : Bytes) : Named (parseHeader data) := by
  have hread {α β : Type} {x : Except BerError α} {f : α → Except String β} (hf : ∀ a, Named (f a)) :
      Named (malformed x >>= f) := named_bind (named_malformed x) hf
  unfold parseHeader
  refine hread fun outer => hread fun version => hread fun v => named_guard (by decide) ?_
  refine hread fun globl => hread fun msgId => hread fun maxSize => hread fun flags => hread fun model => ?_
  refine hread fun m => named_guard (by decide) ?_
  refine hread fun params => hread fun usm => hread fun engine => hread fun boots => hread fun clock => ?_
  refine hread fun user => hread fun auth => hread fun priv => hread fun body => hread fun bootsValue => ?_
  refine hread fun timeValue => ?_
  dsimp only
  split
  · exact named_guard (by decide) (named_guard (by decide) (named_ok _))
  · exact named_error (by decide)

theorem named_userOf (policy : SnmpPolicy) (header : Header) : Named (userOf policy header) := by
  unfold userOf
  split
  · exact named_error (by decide)
  · refine named_ite (named_error (by decide)) (named_ite (named_error (by decide)) ?_)
    exact named_ite (named_error (by decide)) (named_ite (named_error (by decide)) (named_ok _))

variable (P : Platform)

theorem named_authenticate (data : Bytes) (policy : SnmpPolicy) (state : UsmState) (now : ℚ) (header : Header)
    (user : UsmUser) (key : Bytes) : Named (authenticate P data policy state now header user key).1 := by
  unfold authenticate
  split
  · exact named_ok _
  split
  · split
    · exact named_ite (named_ok _) (named_error (by decide))
    · exact named_ok _
  · exact named_error (by decide)

/-- `Named`, where what is raised may be no refusal. -/
def Refuses {α : Type} (x : Except Raised α) : Prop := ∀ reason, x = .error (.refused reason) → Lettered reason

section
variable {α : Type} {x y : Except Raised α}

theorem refuses_error (h : Lettered reason) : Refuses (.error (.refused reason) : Except Raised α) :=
  fun _ he => Raised.refused.inj (Except.error.inj he) ▸ h

theorem refuses_ite {c : Prop} [Decidable c] (hx : Refuses x) (hy : Refuses y) : Refuses (if c then x else y) := by
  split
  · exact hx
  · exact hy

theorem refuses_refuse {x : Except String α} (h : Named x) : Refuses (refuse x) := by
  cases x with
  | ok a => exact nofun
  | error reason => exact refuses_error (h reason rfl)

end

theorem refuses_decrypt (priv : Priv) (key : Bytes) (header : Header) : Refuses (decrypt P priv key header) := by
  unfold decrypt
  split
  · exact refuses_error (by decide)
  · refine refuses_ite (refuses_error (by decide)) (refuses_ite (refuses_error (by decide)) (refuses_ite nofun ?_))
    cases priv <;> exact nofun

theorem refuses_scopedOf (header : Header) (user : UsmUser) (key : Bytes) : Refuses (scopedOf P header user key) := by
  unfold scopedOf
  split
  · exact refuses_ite (refuses_error (by decide)) (refuses_decrypt P _ _ _)
  · exact refuses_ite (refuses_error (by decide)) nofun

theorem refuses_process (data : Bytes) (policy : SnmpPolicy) (state : UsmState) (now : ℚ) :
    Refuses (process P data policy state now).1 := by
  unfold process
  cases hheader : parseHeader data with
  | error reason => exact refuses_error (named_parseHeader data reason hheader)
  | ok header =>
    cases huser : userOf policy header with
    | error reason =>
      simp only [huser]
      exact refuses_error (named_userOf policy header reason huser)
    | ok user =>
      simp only [huser]
      obtain ⟨keys, state⟩ := state.keysFor P user header.engine_id
      have hauth := named_authenticate P data policy state now header user keys.1
      generalize authenticate P data policy state now header user keys.1 = authentic at hauth ⊢
      obtain ⟨reason | _, state'⟩ := authentic
      · exact refuses_error (hauth reason rfl)
      · have hscoped := refuses_scopedOf P header user keys.2
        dsimp only
        generalize scopedOf P header user keys.2 = body at hscoped ⊢
        cases body with
        | error e => exact fun reason h => hscoped reason (congrArg Except.error (Except.error.inj h))
        | ok plain =>
          dsimp only
          cases P.decodeScoped plain with
          | none =>
            refine refuses_error ?_
            split <;> decide
          | some pdu => exact nofun

theorem named_acceptedTag (community : Bytes) (key : Option Bytes) (policy : SnmpPolicy) :
    Named (acceptedTag P community key policy) := named_ite (named_ok _) (named_error (by decide))

theorem named_eventFromPdu (source : String) (varbinds : List Varbind) (ts : ℚ) (tag : String) :
    Named (eventFromPdu P source varbinds ts tag) :=
  named_ite (named_error (by decide)) (named_ite (named_error (by decide)) (named_ok _))

/-- A reason that goes on as it may. -/
theorem lettered_append (h : Lettered reason) (hne : reason.toList ≠ []) (more : String) :
    Lettered (reason ++ more) := by
  rw [Lettered, String.toList_append, List.head?_append_of_ne_nil _ hne]
  exact h

theorem lettered_kind (kind : String) : Lettered ("not-a-trap-pdu:" ++ kind) :=
  lettered_append (by decide) (by decide) kind

section
variable (source : String) (data : Bytes) (ts : ℚ) (key : Option Bytes) (policy : SnmpPolicy)

theorem named_parseV1 : Named (parseV1 P source data ts key policy) := by
  unfold parseV1
  split
  · exact named_error (by decide)
  · refine named_ite (named_error (lettered_kind _)) ?_
    split
    · rename_i reason hreason
      exact named_error (named_acceptedTag P _ key policy reason hreason)
    · exact named_ite (named_error (by decide)) (named_ok _)

theorem lettered_decodeFailureReason : Lettered (decodeFailureReason data) := by
  unfold decodeFailureReason
  split
  · decide
  · split
    · exact lettered_append (by decide) (by decide) _
    · decide

theorem named_parseV2c : Named (parseV2c P source data ts key policy) := by
  unfold parseV2c
  split
  · exact named_error (lettered_decodeFailureReason data)
  · refine named_ite (named_error (lettered_kind _)) ?_
    split
    · rename_i reason hreason
      exact named_error (named_acceptedTag P _ key policy reason hreason)
    · exact named_eventFromPdu P _ _ _ _

theorem refuses_parseV3 (state : UsmState) : Refuses (parseV3 P source data ts key policy state).1 := by
  have hprocess := refuses_process P data policy state ts
  unfold parseV3
  generalize process P data policy state ts = processed at hprocess ⊢
  obtain ⟨e | ⟨pdu, user⟩, state'⟩ := processed
  · exact fun reason h => hprocess reason (congrArg Except.error (Except.error.inj h))
  · dsimp only
    split
    · exact refuses_error (lettered_kind _)
    · exact refuses_refuse (named_eventFromPdu P _ _ _ _)

theorem refuses_parseTrap (state : UsmState) : Refuses (parseTrap P source data ts key policy state).1 := by
  unfold parseTrap
  split
  · split
    · exact refuses_error (by decide)
    · exact refuses_refuse (named_parseV1 P source data ts key policy)
  · split
    · exact refuses_error (by decide)
    · exact refuses_parseV3 P source data ts key policy state
  · split
    · exact refuses_error (by decide)
    · exact refuses_refuse (named_parseV2c P source data ts key policy)
  · exact refuses_refuse (named_parseV2c P source data ts key policy)

end

end NetCoreNoc.Snmp
