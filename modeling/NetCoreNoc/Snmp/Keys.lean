import Mathlib
import NetCoreNoc.Runs
import NetCoreNoc.Snmp.Clocks

/-! The keys that the User-based Security Model remembers (`UsmState.keys`), over any run of messages and policies. -/
namespace NetCoreNoc.Snmp
open Runs

section
variable (P : Platform)

/-- The keys of a user on an engine, as `UsmState.keys` derives them. -/
def derived (user : UsmUser) (engineId : Bytes) : Bytes × Bytes :=
  (match user.auth with
    | some a => localize P user.auth_key engineId a
    | none => [],
  match user.auth, user.priv with
    | some a, some p => privacyKey P user.priv_key engineId a p
    | _, _ => [])

/-- What the derivation reads of a privacy protocol: the size of its key, and how a key is extended to it. -/
abbrev Scheme := Nat × Bool

def Priv.scheme (p : Priv) : Scheme := (p.keySize, p.reeder)

def UsmUser.protocols (user : UsmUser) : Option Auth × Option Scheme := (user.auth, user.priv.map Priv.scheme)

def slotOf (user : UsmUser) (engineId : Bytes) : Slot := (user.name, user.auth_key, user.priv_key, engineId)

/-- The keys of a slot under some protocols -/
def derivedAs (protocols : Option Auth × Option Scheme) (slot : Slot) : Bytes × Bytes :=
  (match protocols.1 with
    | some a => localize P slot.2.1 slot.2.2.2 a
    | none => [],
  match protocols.1, protocols.2 with
    | some a, some (size, reeder) =>
      let key := localize P slot.2.2.1 slot.2.2.2 a
      (if reeder then reederKey P a slot.2.2.2 size size key
        else blumenthalKey P a ((size + key.length - 1) / key.length - 1) key).take size
    | _, _ => [])

theorem derived_eq (user : UsmUser) (engineId : Bytes) :
    derived P user engineId = derivedAs P user.protocols (slotOf user engineId) := by
  unfold derived derivedAs UsmUser.protocols
  cases user.auth with
  | none => rfl
  | some auth => cases user.priv with
    | none => rfl
    | some priv => rfl

theorem keysFor_miss {state : UsmState} {user : UsmUser} {engineId : Bytes}
    (h : state.keys.lookup (slotOf user engineId) = none) : state.keysFor P user engineId =
      (derived P user engineId, { state with
        keys := bounded (state.keys ++ [(slotOf user engineId, derived P user engineId)]) }) := by
  have hlookup : state.keys.lookup (user.name, user.auth_key, user.priv_key, engineId) = _ := h
  unfold UsmState.keysFor
  dsimp only
  rw [hlookup]
  rfl

theorem keysFor_hit {state : UsmState} {user : UsmUser} {engineId : Bytes} {found : Bytes × Bytes}
    (h : state.keys.lookup (slotOf user engineId) = some found) : state.keysFor P user engineId =
      (found, { state with keys := moveToEnd (slotOf user engineId) found state.keys }) := by
  have hlookup : state.keys.lookup (user.name, user.auth_key, user.priv_key, engineId) = _ := h
  unfold UsmState.keysFor
  dsimp only
  rw [hlookup]
  rfl

end

/-- The user and the engine whose keys a message asks for -/
def asked (data : Bytes) (policy : SnmpPolicy) : Option (UsmUser × Bytes) :=
  match parseHeader data with
  | .error _ => none
  | .ok header =>
    match userOf policy header with
    | .error _ => none
    | .ok user => some (user, header.engine_id)

section
variable {P : Platform} {data : Bytes} {policy : SnmpPolicy} {state other : UsmState} {now : ℚ}

theorem inWindow_keys (state : UsmState) (engineId : Bytes) (boots engineTime : Int) (now : ℚ) :
    (state.inWindow engineId boots engineTime now).2.keys = state.keys := by
  rcases inWindow_cases state engineId boots engineTime now with h | ⟨-, -, ⟨k, -, -, -, h⟩ | ⟨-, h⟩⟩ <;> rw [h]

theorem authenticate_keys (header : Header) (user : UsmUser) (key : Bytes) :
    (authenticate P data policy state now header user key).2.keys = state.keys := by
  unfold authenticate
  cases user.auth with
  | none => rfl
  | some auth =>
    dsimp only
    split
    · split
      · exact inWindow_keys _ _ _ _ _
      · rfl
    · rfl

theorem process_keys : (process P data policy state now).2.keys =
    match asked data policy with
    | some (user, engineId) => (state.keysFor P user engineId).2.keys
    | none => state.keys := by
  cases hh : parseHeader data with
  | error reason => simp only [process, asked, hh]
  | ok header =>
    cases hu : userOf policy header with
    | error reason => simp only [process, asked, hh, hu]
    | ok user =>
      rw [process_settled hh hu, authenticate_keys]
      simp only [asked, hh, hu]

theorem authenticate_congr (h : state.clocks = other.clocks) (header : Header) (user : UsmUser) (key data : Bytes)
    (policy : SnmpPolicy) (now : ℚ) :
    (authenticate P data policy state now header user key).1 =
        (authenticate P data policy other now header user key).1 ∧
      (authenticate P data policy state now header user key).2.clocks =
        (authenticate P data policy other now header user key).2.clocks := by
  obtain ⟨hin, hclocks⟩ := inWindow_congr h header.engine_id header.boots header.engine_time now
  unfold authenticate
  cases user.auth with
  | none => exact ⟨rfl, h⟩
  | some auth =>
    dsimp only
    split
    · split
      · dsimp only
        rw [hin]
        exact ⟨rfl, hclocks⟩
      · exact ⟨rfl, h⟩
    · exact ⟨rfl, h⟩

/-- Two states give a message the same outcome where they remember the same clocks and give its user the same keys. -/
theorem process_congr (h : state.clocks = other.clocks) (hkeys : ∀ user engineId,
    asked data policy = some (user, engineId) →
      (state.keysFor P user engineId).1 = (other.keysFor P user engineId).1) :
    (process P data policy state now).1 = (process P data policy other now).1 ∧
      (process P data policy state now).2.clocks = (process P data policy other now).2.clocks := by
  cases hh : parseHeader data with
  | error reason => simp only [process, hh, h, and_self]
  | ok header =>
    cases hu : userOf policy header with
    | error reason => simp only [process, hh, hu, h, and_self]
    | ok user =>
      have hkey := hkeys user header.engine_id (by simp only [asked, hh, hu])
      have hclocks : (state.keysFor P user header.engine_id).2.clocks =
          (other.keysFor P user header.engine_id).2.clocks := by rw [keysFor_clocks, keysFor_clocks, h]
      have hauth := authenticate_congr (P := P) hclocks header user (other.keysFor P user header.engine_id).1.1 data
        policy now
      refine ⟨?_, ?_⟩
      · unfold process
        simp only [hh, hu, hkey]
        obtain ⟨houtcome, -⟩ := hauth
        generalize authenticate P data policy (state.keysFor P user header.engine_id).2 now header user
          (other.keysFor P user header.engine_id).1.1 = mine at houtcome ⊢
        generalize authenticate P data policy (other.keysFor P user header.engine_id).2 now header user
          (other.keysFor P user header.engine_id).1.1 = its at houtcome ⊢
        obtain ⟨outcome, s⟩ := mine
        obtain ⟨outcome', t⟩ := its
        obtain rfl : outcome = outcome' := houtcome
        cases outcome with
        | error reason => rfl
        | ok u =>
          dsimp only
          split
          · rfl
          · split <;> rfl
      · rw [process_settled hh hu, process_settled hh hu, hkey]
        exact hauth.2

end

/-- The receiver's state, and the protocols of the user that each slot was last derived for. -/
structure Keyring where
  state : UsmState := {}
  filler : Slot → Option Auth × Option Scheme := fun _ => (none, none)

def Keyring.hear (P : Platform) (r : Keyring) (a : Arrival) : Keyring where
  state := (process P a.data a.policy r.state a.now).2
  filler := match asked a.data a.policy with
    | some (user, engineId) =>
      if (r.state.keys.lookup (slotOf user engineId)).isSome then r.filler
      else Function.update r.filler (slotOf user engineId) user.protocols
    | none => r.filler

/-- A user's slot on an engine is not cached, or was filled for a user with the same protocols. -/
def Keyring.Settles (r : Keyring) (user : UsmUser) (engineId : Bytes) : Prop :=
  r.state.keys.lookup (slotOf user engineId) = none ∨ r.filler (slotOf user engineId) = user.protocols

def Keyring.Settled (r : Keyring) (a : Arrival) : Prop :=
  ∀ asker ∈ asked a.data a.policy, r.Settles asker.1 asker.2

instance (r : Keyring) (a : Arrival) : Decidable (r.Settled a) :=
  match h : asked a.data a.policy with
  | none => .isTrue fun asker hin => absurd (h ▸ hin) nofun
  | some asker =>
    decidable_of_iff (r.state.keys.lookup (slotOf asker.1 asker.2) = none ∨
        r.filler (slotOf asker.1 asker.2) = asker.1.protocols) <| by
      unfold Keyring.Settled
      rw [h]
      exact ⟨fun hs x hx => Option.some.inj hx ▸ hs, fun hs => hs asker rfl⟩

/-- The messages' clocks alone, the keys being derived for each message anew. -/
def unkeyed (P : Platform) (clocks : List (Bytes × Clock)) (a : Arrival) : List (Bytes × Clock) :=
  (process P a.data a.policy { clocks } a.now).2.clocks

variable {P : Platform} {r : Keyring}

/-- A cached key is what its slot's filler derives. -/
structure Keyring.Coherent (P : Platform) (r : Keyring) : Prop where
  nodup : (r.state.keys.map Prod.fst).Nodup
  cached : ∀ slot keys, r.state.keys.lookup slot = some keys → keys = derivedAs P (r.filler slot) slot

theorem Keyring.Coherent.hear (h : r.Coherent P) (a : Arrival) : (r.hear P a).Coherent P := by
  have hkeys : (r.hear P a).state.keys = _ := process_keys
  cases hasked : asked a.data a.policy with
  | none =>
    have hfiller : (r.hear P a).filler = r.filler := by
      unfold Keyring.hear
      rw [hasked]
    rw [hasked] at hkeys
    refine ⟨hkeys ▸ h.nodup, fun slot keys hs => ?_⟩
    rw [hkeys] at hs
    rw [hfiller]
    exact h.cached slot keys hs
  | some asker =>
    obtain ⟨user, engineId⟩ := asker
    rw [hasked] at hkeys
    cases hfound : r.state.keys.lookup (slotOf user engineId) with
    | some found =>
      have hfiller : (r.hear P a).filler = r.filler := by
        unfold Keyring.hear
        rw [hasked]
        dsimp only
        rw [hfound]
        rfl
      dsimp only at hkeys
      rw [keysFor_hit P hfound] at hkeys
      refine ⟨hkeys ▸ keys_moveToEnd h.nodup, fun slot keys hs => ?_⟩
      rw [hkeys, lookup_moveToEnd] at hs
      rw [hfiller]
      split at hs
      · rename_i heq
        exact Option.some.inj hs ▸ heq ▸ h.cached _ found hfound
      · exact h.cached slot keys hs
    | none =>
      have hfiller : (r.hear P a).filler =
          Function.update r.filler (slotOf user engineId) user.protocols := by
        unfold Keyring.hear
        rw [hasked]
        dsimp only
        rw [hfound]
        rfl
      dsimp only at hkeys
      rw [keysFor_miss P hfound] at hkeys
      have hnew : slotOf user engineId ∉ r.state.keys.map Prod.fst := by
        intro hin
        obtain ⟨e, he, hslot⟩ := List.mem_map.mp hin
        have := List.lookup_eq_none_iff.mp hfound e he
        exact bne_iff_ne.mp this hslot.symm
      have hnodup : ((r.state.keys ++ [(slotOf user engineId, derived P user engineId)]).map Prod.fst).Nodup := by
        rw [List.map_append]
        exact h.nodup.append (List.nodup_singleton _) (List.disjoint_singleton.mpr hnew)
      have hsub := bounded_sublist (r.state.keys ++ [(slotOf user engineId, derived P user engineId)])
      refine ⟨hkeys ▸ hnodup.sublist (hsub.map Prod.fst), fun slot keys hs => ?_⟩
      rw [hkeys] at hs
      have hall := lookup_sublist hsub hnodup hs
      rw [List.lookup_append] at hall
      rw [hfiller]
      rcases eq_or_ne slot (slotOf user engineId) with rfl | hne
      · rw [hfound, Option.none_or, List.lookup_cons_self] at hall
        rw [Function.update_self, ← derived_eq]
        exact (Option.some.inj hall).symm
      · rw [Function.update_of_ne hne]
        refine h.cached slot keys ?_
        rwa [lookup_cons_eq, if_neg hne, List.lookup_nil, Option.or_none] at hall

theorem Keyring.Coherent.fresh (h : r.Coherent P) {user : UsmUser} {engineId : Bytes} (hs : r.Settles user engineId) :
    (r.state.keysFor P user engineId).1 = derived P user engineId := by
  cases hfound : r.state.keys.lookup (slotOf user engineId) with
  | none => rw [keysFor_miss P hfound]
  | some found =>
    rw [keysFor_hit P hfound, h.cached _ found hfound, derived_eq]
    exact congrArg (derivedAs P · _) (hs.resolve_left (by rw [hfound]; exact nofun))

theorem Keyring.Coherent.transparent (h : r.Coherent P) {a : Arrival} (hs : r.Settled a) :
    (process P a.data a.policy r.state a.now).1 = (process P a.data a.policy { clocks := r.state.clocks } a.now).1 ∧
      (process P a.data a.policy r.state a.now).2.clocks = unkeyed P r.state.clocks a := by
  refine process_congr rfl fun user engineId hasked => ?_
  rw [h.fresh (hs _ hasked), keysFor_miss P rfl]

theorem coherent_start (P : Platform) : ({} : Keyring).Coherent P := ⟨List.nodup_nil, nofun⟩

/-- After any messages under any policies, where no slot was ever asked for again under other protocols than its
filler's while it was cached, the keys are those derived afresh, and the outcome of a message is the one it has when
every key is derived anew. -/
theorem keys_transparent (P : Platform) (as : List Arrival) (hs : Meets (Keyring.hear P) Keyring.Settled {} as) :
    (∀ user engineId, (run (Keyring.hear P) {} as).Settles user engineId →
      ((run (Keyring.hear P) {} as).state.keysFor P user engineId).1 = derived P user engineId) ∧
    (run (Keyring.hear P) {} as).state.clocks = run (unkeyed P) [] as ∧
    ∀ a, (run (Keyring.hear P) {} as).Settled a →
      (process P a.data a.policy (run (Keyring.hear P) {} as).state a.now).1 =
        (process P a.data a.policy { clocks := run (unkeyed P) [] as } a.now).1 := by
  have hcoherent (bs : List Arrival) : (run (Keyring.hear P) {} bs).Coherent P :=
    run_always (I := Keyring.Coherent P) (fun _ a h => h.hear a) _ bs (coherent_start P)
  have hclocks : (run (Keyring.hear P) {} as).state.clocks = run (unkeyed P) [] as := by
    induction as using List.reverseRecOn with
    | nil => rfl
    | append_singleton as a ih =>
      obtain ⟨hbefore, hlast, -⟩ := (meets_append _ _ _).mp hs
      rw [run_append, run_append, ← ih hbefore]
      exact ((hcoherent as).transparent hlast).2
  refine ⟨fun user engineId h => (hcoherent as).fresh h, hclocks, fun a ha => ?_⟩
  rw [← hclocks]
  exact ((hcoherent as).transparent ha).1

/-- A private trap of one engine, its MAC zeros -/
def privateTrap : Bytes :=
  [0x30, 0x43, 0x02, 0x01, 0x03, 0x30, 0x0d, 0x02, 0x01, 0x01, 0x02, 0x02, 0x05, 0xdc, 0x04, 0x01, 0x03, 0x02, 0x01,
    0x03, 0x04, 0x2b, 0x30, 0x29, 0x04, 0x05, 0x80, 0x00, 0x1f, 0x00, 0x01, 0x02, 0x01, 0x02, 0x02, 0x02, 0x03, 0xe8,
    0x04, 0x01, 0x75, 0x04, 0x0c, 0, 0, 0, 0, 0, 0, 0, 0, 0, 0, 0, 0, 0x04, 0x08, 1, 2, 3, 4, 5, 6, 7, 8, 0x04, 0x02,
    0xab, 0xcd]

/-- A platform where that trap is plain under one key of 32 octets -/
def lockedPlatform : Platform :=
  { blindPlatform with
    decodeScoped := fun plain => if plain = [0x30, 0x00] then some ⟨"TrapPDU", true, []⟩ else none
    ciphers := some {
      tripleDes := fun _ _ data => data
      aes := fun key _ data => if key = List.replicate 32 0 then [0x30, 0x00] else data } }

def guarded (priv : Priv) : UsmUser where
  name := "u"
  auth := some .MD5
  priv := some priv
  auth_key := List.replicate 16 1
  priv_key := List.replicate 16 2
  priv_auth _ := rfl

def underPriv (priv : Priv) : Arrival := ⟨privateTrap, { users := [([0x75], guarded priv)] }, 0⟩

theorem keys_transparent_kept :
    (∀ user engineId,
      (run (Keyring.hear lockedPlatform) {} [underPriv .AES256, underPriv .AES256]).Settles user engineId →
      ((run (Keyring.hear lockedPlatform) {} [underPriv .AES256, underPriv .AES256]).state.keysFor
        lockedPlatform user engineId).1 = derived lockedPlatform user engineId) ∧
    (run (Keyring.hear lockedPlatform) {} [underPriv .AES256, underPriv .AES256]).state.clocks =
      run (unkeyed lockedPlatform) [] [underPriv .AES256, underPriv .AES256] :=
  have h := keys_transparent lockedPlatform [underPriv .AES256, underPriv .AES256] (by decide +kernel)
  ⟨h.1, h.2.1⟩

/-- A user whose privacy protocol became AES-256, the passphrase kept, has the 16 octets of AES-128 for a key. -/
theorem changed_stale : ∃ before after : Arrival,
    asked after.data after.policy = some (guarded .AES256, [0x80, 0, 0x1f, 0, 1]) ∧
    ((Keyring.hear lockedPlatform {} before).state.keysFor lockedPlatform (guarded .AES256) [0x80, 0, 0x1f, 0, 1]).1 ≠
      derived lockedPlatform (guarded .AES256) [0x80, 0, 0x1f, 0, 1] ∧
    (process lockedPlatform after.data after.policy (Keyring.hear lockedPlatform {} before).state after.now).1 ≠
      (process lockedPlatform after.data after.policy
        { clocks := (Keyring.hear lockedPlatform {} before).state.clocks } after.now).1 := by
  refine ⟨underPriv .AES128, underPriv .AES256, by rfl, by decide +kernel, fun h => ?_⟩
  have hfresh : ((process lockedPlatform privateTrap (underPriv .AES256).policy
      { clocks := (Keyring.hear lockedPlatform {} (underPriv .AES128)).state.clocks } 0).1.toOption).isSome := by
    decide +kernel
  have hstale : ((process lockedPlatform privateTrap (underPriv .AES256).policy
      (Keyring.hear lockedPlatform {} (underPriv .AES128)).state 0).1.toOption).isSome = false := by
    decide +kernel
  exact absurd (hstale.symm.trans ((congrArg (fun o => o.toOption.isSome) h).trans hfresh)) Bool.false_ne_true

end NetCoreNoc.Snmp
