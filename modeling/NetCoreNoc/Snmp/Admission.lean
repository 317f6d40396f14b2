import Mathlib
import NetCoreNoc.Snmp.Receiver

/-! Which datagrams become events, against which the policy admits. -/
namespace NetCoreNoc.Snmp

/-- What is decoded of a datagram: a message under a community, or the header of one from a user. -/
inductive Decoded where
  | community (version : Int) (community : Bytes)
  | user (header : Header)

/-- The decoder that a datagram comes to. -/
def decoded (P : Platform) (data : Bytes) : Option Decoded :=
  match peekVersion data with
  | some 0 => (P.decodeV1 data).map fun m => .community m.version m.community
  | some 3 => (parseHeader data).toOption.map .user
  | _ => (P.decodeV2c data).map fun m => .community m.version m.community

section
variable {P : Platform} {data : Bytes} {key : Option Bytes} {policy : SnmpPolicy}

variable {header : Header} {user : UsmUser}

variable {state : UsmState} {now : ℚ}

theorem authenticate_ok
    {auth_key : Bytes} (h : (authenticate P data policy state now header user auth_key).1 = .ok ()) :
    ∀ auth ∈ user.auth, verified P data header auth auth_key = true := by
  intro auth hauth
  unfold authenticate at h
  rw [Option.mem_def.mp hauth] at h
  by_contra hv
  simp [hv] at h

/-- A v3 message that gets to its scoped PDU. -/
structure Passes (P : Platform) (data : Bytes) (policy : SnmpPolicy) (state : UsmState) (now : ℚ)
    (header : Header) (user : UsmUser) : Prop where
  parsed : parseHeader data = .ok header
  known : userOf policy header = .ok user
  authentic : (authenticate P data policy (state.keysFor P user header.engine_id).2 now header user
    (state.keysFor P user header.engine_id).1.1).1 = .ok ()

theorem process_ok {pdu : Pdu} {user : UsmUser}
    (h : (process P data policy state now).1 = .ok (pdu, user)) :
    ∃ header, Passes P data policy state now header user := by
  unfold process at h
  cases hh : parseHeader data with
  | error reason => simp [hh] at h
  | ok header =>
    cases hu : userOf policy header with
    | error reason => simp [hh, hu] at h
    | ok u =>
      simp only [hh, hu] at h
      split at h
      · simp at h
      · rename_i hauth
        split at h
        · simp at h
        · split at h
          · simp at h
          · simp only [Except.ok.injEq, Prod.mk.injEq] at h
            obtain ⟨-, rfl⟩ := h
            exact ⟨header, hh, hu, congrArg Prod.fst hauth⟩

end

end NetCoreNoc.Snmp
