import Mathlib
import NetCoreNoc.Earliest
import NetCoreNoc.Json.Canonical
import NetCoreNoc.Policies.Values
import NetCoreNoc.Tables
import NetCoreNoc.Text

/-! The stored policy of the trap receiver (`ingest/snmpconf.py`): its text, what a text is read as, and the problems of
a policy. -/
namespace NetCoreNoc.Policies.Snmp
open Json Checks Tables

abbrev Bytes := List UInt8

def DOCUMENT_VERSION : ℤ := 1
def MAX_USER_NAME : ℕ := 32
def ENGINE_ID_BYTES : ℕ × ℕ := (5, 32)
def MAX_COMMUNITIES : ℕ := 64
def MAX_USERS : ℕ := 64

def AUTH_PROTOCOLS : List Str := [lit "MD5", lit "SHA", lit "SHA-224", lit "SHA-256", lit "SHA-384", lit "SHA-512"]

def PRIV_PROTOCOLS : List Str :=
  [lit "DES", lit "3DES", lit "AES-128", lit "AES-192", lit "AES-256", lit "AES-192-C", lit "AES-256-C"]

def NONE : Str := lit "none"

structure UsmUser where
  name : Str
  auth : Str
  priv : Str
  auth_key : Bytes
  priv_key : Bytes
  engine_id : Option Bytes
  deriving DecidableEq

structure Community where
  digest : Str
  hint : Str
  deriving DecidableEq

structure SnmpPolicy where
  v1 : Bool
  v2c : Bool
  v3 : Bool
  communities : List Community
  users : Table Bytes UsmUser
  time_window : Bool

def DEFAULT_POLICY : SnmpPolicy := ⟨true, true, true, [], .empty, true⟩

/-- Two policies that are equal: a dictionary has no order. -/
structure Same (p q : SnmpPolicy) : Prop where
  v1 : p.v1 = q.v1
  v2c : p.v2c = q.v2c
  v3 : p.v3 = q.v3
  communities : p.communities = q.communities
  users : ∀ k, p.users.get k = q.users.get k
  time_window : p.time_window = q.time_window

/-! Bytes as hex -/

/-- `bytes.hex` -/
def hex (b : Bytes) : Str := b.flatMap fun b => [hexDigit (b.toNat / 16), hexDigit (b.toNat % 16)]

/-- The spaces of ASCII. -/
def isAsciiSpace (c : CodePoint) : Bool := 9 ≤ c.val ∧ c.val ≤ 13 ∨ c.val = 32

/-- `bytes.fromhex`: spaces may stand between bytes. -/
def fromhex : Str → Option Bytes
  | [] => some []
  | [c] => if isAsciiSpace c then some [] else none
  | c :: d :: r =>
    if isAsciiSpace c then fromhex (d :: r)
    else do
      let high ← hexVal c
      let low ← hexVal d
      let b ← fromhex r
      some (UInt8.ofNat (high * 16 + low) :: b)

/-! What is wrong with a policy -/

/-- `[A-Za-z0-9._@-]` -/
def isNameChar (c : CodePoint) : Bool :=
  Text.isLetter c ∨ isDigit c ∨ c = chr '.' ∨ c = chr '_' ∨ c = chr '@' ∨ c = chr '-'

/-- `_USER_NAME.match`: `$` also stands before a newline that ends the text. -/
def matches_user_name (name : Str) : Bool :=
  let body := if name.getLast? = some (10 : CodePoint) then name.dropLast else name
  body.all isNameChar ∧ 1 ≤ body.length ∧ body.length ≤ MAX_USER_NAME

def problemIf (p : Prop) [Decidable p] (problem : Str) : List Str := if p then [problem] else []

variable (F : Type) [Python F]

def user_problems (user : UsmUser) : List Str :=
  let name := Python.repr F user.name
  problemIf (¬ matches_user_name user.name) (lit "user name " ++ name ++ lit " must be 1 to 32 letters, digits or . _ @ -") ++
  problemIf (user.auth ≠ NONE ∧ user.auth ∉ AUTH_PROTOCOLS)
    (lit "unknown authentication protocol " ++ Python.repr F user.auth) ++
  problemIf (user.priv ≠ NONE ∧ user.priv ∉ PRIV_PROTOCOLS) (lit "unknown privacy protocol " ++ Python.repr F user.priv) ++
  problemIf (user.priv ≠ NONE ∧ user.auth = NONE)
    (lit "user " ++ name ++ lit ": privacy needs authentication (authPriv)") ++
  problemIf (user.auth ≠ NONE ∧ user.auth_key = [])
    (lit "user " ++ name ++ lit ": an authentication passphrase is required") ++
  problemIf (user.priv ≠ NONE ∧ user.priv_key = []) (lit "user " ++ name ++ lit ": a privacy passphrase is required") ++
  problemIf (∃ b ∈ user.engine_id, ¬ (ENGINE_ID_BYTES.1 ≤ b.length ∧ b.length ≤ ENGINE_ID_BYTES.2))
    (lit "user " ++ name ++ lit ": an engine ID is 5 to 32 octets")

def policy_problems (policy : SnmpPolicy) : List Str :=
  problemIf (¬ (policy.v1 ∨ policy.v2c ∨ policy.v3))
    (lit "at least one SNMP version must be accepted, or no trap would arrive") ++
  problemIf (MAX_COMMUNITIES < policy.communities.length) (lit "at most 64 communities") ++
  problemIf (MAX_USERS < policy.users.size) (lit "at most 64 SNMPv3 users") ++
  policy.users.entries.flatMap fun e => user_problems F e.2

/-! The stored form: its keys in their order, without spaces -/

variable {F}

def Community.document (c : Community) : Doc F := .obj [(lit "digest", .str c.digest), (lit "hint", .str c.hint)]

/-- An engine ID that is missing or empty is `null`. -/
def engineDoc (engine_id : Option Bytes) : Doc F := (engine_id.filter (· ≠ [])).elim .null fun b => .str (hex b)

def UsmUser.document (u : UsmUser) : Doc F := .obj [(lit "auth", .str u.auth), (lit "auth_key", .str (hex u.auth_key)),
  (lit "engine_id", engineDoc u.engine_id), (lit "name", .str u.name), (lit "priv", .str u.priv),
  (lit "priv_key", .str (hex u.priv_key))]

/-- `sorted(policy.users.values(), key=lambda u: u.name)` -/
def SnmpPolicy.ordered (p : SnmpPolicy) : List UsmUser := Earliest.ordered UsmUser.name (p.users.entries.map Prod.snd)

def SnmpPolicy.document (p : SnmpPolicy) : Doc F := .obj [(lit "communities", .list (p.communities.map Community.document)),
  (lit "time_window", .bool p.time_window), (lit "users", .list (p.ordered.map UsmUser.document)), (lit "v1", .bool p.v1),
  (lit "v2c", .bool p.v2c), (lit "v3", .bool p.v3), (lit "version", .int DOCUMENT_VERSION)]

/-! The policy of a text -/

/-- `data.get(key, default)` -/
def get (data : Doc F) (key : Str) (default : Doc F) : Except PyError (Doc F) :=
  match data with
  | .obj l => .ok ((l.lookup key).getD default)
  | _ => .error .AttributeError

/-- What a `for` goes over. -/
def iterate : Doc F → Except PyError (List (Doc F))
  | .list l => .ok l
  | .obj l => .ok (l.map fun e => .str e.1)
  | .str s => .ok (s.map fun c => .str [c])
  | .null => .error .TypeError
  | .bool _ => .error .TypeError
  | .int _ => .error .TypeError
  | .float _ => .error .TypeError

/-- `bytes.fromhex` -/
def bytesOf : Doc F → Except PyError Bytes
  | .str s => orRaise .ValueError (fromhex s)
  | _ => .error .TypeError

/-- `d or default` -/
def orElse (d default : Doc F) : Doc F := if truth d then d else default

/-- The bytes of an engine ID, where there is one. -/
def engineOf (d : Doc F) : Except PyError (Option Bytes) := if truth d then (bytesOf d).map some else .ok none

/-- `d == 1` -/
def isOne : Doc F → Bool
  | .int n => n = 1
  | .bool b => b
  | .float x => Python.rank x = .finite 1
  | _ => false

def isDict : Doc F → Bool
  | .obj _ => true
  | _ => false

/-- A user under the UTF-8 of the name. -/
def read_user (data : Doc F) : Except PyError (Bytes × UsmUser) := do
  let name := strOf (← item data (lit "name"))
  let auth := strOf (← get data (lit "auth") (.str NONE))
  let priv := strOf (← get data (lit "priv") (.str NONE))
  let auth_key ← bytesOf (orElse (← get data (lit "auth_key") .null) (.str []))
  let priv_key ← bytesOf (orElse (← get data (lit "priv_key") .null) (.str []))
  let engine_id ← engineOf (← get data (lit "engine_id") .null)
  let key ← orRaise .ValueError (encodeUtf8 name)
  .ok (key, ⟨name, auth, priv, auth_key, priv_key, engine_id⟩)

def read_community (data : Doc F) : Except PyError Community := do
  let digest ← item data (lit "digest")
  let hint ← get data (lit "hint") (.str [])
  .ok ⟨strOf digest, strOf hint⟩

/-- Users under their keys: of two under one key the later stands. -/
def keyed (users : List (Bytes × UsmUser)) : Table Bytes UsmUser :=
  users.foldl (fun t e => t.upsert e.1 e.2 fun _ => e.2) .empty

def read (data : Doc F) : Except PyError SnmpPolicy :=
  if isDict data ∧ (entry data (lit "version")).any isOne then do
    let users ← each read_user (← iterate (orElse (← get data (lit "users") .null) (.list [])))
    let v1 ← get data (lit "v1") (.bool true)
    let v2c ← get data (lit "v2c") (.bool true)
    let v3 ← get data (lit "v3") (.bool true)
    let time_window ← get data (lit "time_window") (.bool true)
    let communities ← each read_community (← iterate (orElse (← get data (lit "communities") .null) (.list [])))
    .ok ⟨truth v1, truth v2c, truth v3, communities, keyed users, truth time_window⟩
  else .error .ValueError

variable [PyFloat F]

variable (F) in
def to_document (p : SnmpPolicy) : Str := spaced [] (p.document : Doc F)

variable (F) in
def from_document (text : Str) : Except PyError (SnmpPolicy × List Str) := do
  let policy ← except [.ValueError, .TypeError, .KeyError, .AttributeError] (reads (F := F) (Python.room F) text >>= read)
  .ok (policy.elim (DEFAULT_POLICY,
      [lit "the stored SNMP policy could not be read (" ++ Python.refusal F text ++ lit ")"])
    fun policy => (policy, policy_problems F policy))

/-! What is read of a stored form -/

theorem fromhex_hex (b : Bytes) : fromhex (hex b) = some b := by
  induction b with
  | nil => rfl
  | cons a b ih =>
    have hlt := a.toNat_lt
    have hspace {n : ℕ} (hn : n < 16) : isAsciiSpace (hexDigit n) = false := by interval_cases n <;> rfl
    have hhigh : a.toNat / 16 < 16 := by omega
    have hlow : a.toNat % 16 < 16 := Nat.mod_lt _ (by decide)
    have hcons : hex (a :: b) = hexDigit (a.toNat / 16) :: hexDigit (a.toNat % 16) :: hex b := rfl
    have hbyte : a.toNat / 16 * 16 + a.toNat % 16 = a.toNat := by omega
    rw [hcons, fromhex, hspace hhigh, hexVal_hexDigit hhigh, hexVal_hexDigit hlow, ih]
    simp only [Bool.false_eq_true, if_false, Option.bind_eq_bind, Option.bind_some, hbyte, UInt8.ofNat_toNat]

/-- Characters below the surrogates. -/
def Low (s : Str) : Prop := ∀ c ∈ s, c.val < 0xd800

theorem low_all {l : List Str} (h : (l.all fun s => s.all fun c => c.val < 0xd800) = true) : ∀ s ∈ l, Low s := by
  intro s hs c hc
  have hall := List.all_eq_true.mp (List.all_eq_true.mp h s hs) c hc
  exact of_decide_eq_true hall

theorem Low.joined {s : Str} (h : Low s) : joined s = s := by
  refine (joined_eq_iff s).mpr (List.Pairwise.isChain ?_)
  refine List.pairwise_of_forall_mem_list fun c hc d _ hpair => ?_
  have hlow := h c hc
  have hhigh := hpair.1
  simp only [isHigh, decide_eq_true_eq] at hhigh
  omega

theorem Low.encode {s : Str} (h : Low s) : encodeUtf8 s = some (encodeStr s) := by
  refine if_neg fun hany => ?_
  obtain ⟨c, hc, hsurrogate⟩ := List.any_eq_true.mp hany
  have hlow := h c hc
  simp only [isSurrogate, isHigh, isLow, decide_eq_true_eq] at hsurrogate
  omega

theorem low_hex (b : Bytes) : Low (hex b) := by
  intro c hc
  obtain ⟨a, -, hc⟩ := List.mem_flatMap.mp hc
  have hlt := a.toNat_lt
  have hdigit {n : ℕ} (hn : n < 16) : (hexDigit n).val < 0xd800 := by interval_cases n <;> decide
  rcases List.mem_cons.mp hc with rfl | hc
  · exact hdigit (by omega)
  · exact List.mem_singleton.mp hc ▸ hdigit (Nat.mod_lt _ (by decide))

theorem problemIf_nil {p : Prop} [Decidable p] {problem : Str} : problemIf p problem = [] ↔ ¬ p := by
  unfold problemIf
  split
  · next hp => exact iff_of_false (List.cons_ne_nil _ _) fun h => h hp
  · next hp => exact iff_of_true rfl hp

theorem low_nameChar {c : CodePoint} (h : isNameChar c) : c.val < 0xd800 := by
  simp only [isNameChar, Text.isLetter, isDigit, decide_eq_true_eq] at h
  rcases h with (h | h) | h | rfl | rfl | rfl | rfl
  · omega
  · omega
  · omega
  all_goals decide

theorem low_name {name : Str} (h : matches_user_name name) : Low name := by
  obtain ⟨hall, -⟩ := of_decide_eq_true h
  rw [List.all_eq_true] at hall
  intro c hc
  split at hall
  · next hlast =>
    rw [← List.dropLast_append_getLast? (10 : CodePoint) hlast, List.mem_append] at hc
    rcases hc with hc | hc
    · exact low_nameChar (hall c hc)
    · exact List.mem_singleton.mp hc ▸ by decide
  · exact low_nameChar (hall c hc)

/-- What a user without a problem is made of. -/
structure Valid (u : UsmUser) : Prop where
  name : Low u.name
  auth : Low u.auth
  priv : Low u.priv
  engine_id : ∀ b ∈ u.engine_id, b ≠ []

variable {u : UsmUser}

theorem valid_of_problems {F : Type} [Python F] (h : user_problems F u = []) : Valid u := by
  simp only [user_problems, List.append_eq_nil_iff, problemIf_nil] at h
  obtain ⟨⟨⟨⟨⟨⟨hname, hauth⟩, hpriv⟩, -⟩, -⟩, -⟩, hengine⟩ := h
  have hprotocol {s : Str} {l : List Str} (hl : ∀ t ∈ NONE :: l, Low t) (hs : ¬ (s ≠ NONE ∧ s ∉ l)) : Low s := by
    by_cases hnone : s = NONE
    · exact hl s (hnone ▸ List.mem_cons_self)
    · exact hl s (List.mem_cons_of_mem _ (not_not.mp fun hl => hs ⟨hnone, hl⟩))
  refine ⟨low_name (not_not.mp hname), hprotocol (low_all rfl) hauth, hprotocol (low_all rfl) hpriv, ?_⟩
  rintro b hb rfl
  exact hengine ⟨[], hb, fun h => absurd h.1 (by decide)⟩

variable {F : Type}

theorem backItems_map {α : Type} (f : α → Doc F) (l : List α) : backItems (l.map f) = l.map fun a => back (f a) := by
  induction l with
  | nil => rfl
  | cons a l ih => rw [List.map_cons, List.map_cons, backItems, ih]

theorem back_engineDoc (engine_id : Option Bytes) : back (engineDoc (F := F) engine_id) = engineDoc engine_id := by
  unfold engineDoc
  cases engine_id.filter (· ≠ []) with
  | none => rfl
  | some b => exact congrArg Doc.str (low_hex b).joined

theorem back_user (h : Valid u) : back (u.document (F := F)) = u.document := by
  have hdoc : back (u.document (F := F)) = .obj [(lit "auth", .str (joined u.auth)),
    (lit "auth_key", .str (joined (hex u.auth_key))), (lit "engine_id", back (engineDoc u.engine_id)),
    (lit "name", .str (joined u.name)), (lit "priv", .str (joined u.priv)),
    (lit "priv_key", .str (joined (hex u.priv_key)))] := rfl
  rw [hdoc, h.auth.joined, h.name.joined, h.priv.joined, (low_hex _).joined, (low_hex _).joined, back_engineDoc]
  rfl

/-- A community as its stored form reads: surrogates that meet are one code point. -/
def Community.back (c : Community) : Community := ⟨joined c.digest, joined c.hint⟩

theorem back_document {p : SnmpPolicy} (h : ∀ u ∈ p.ordered, Valid u) : back (p.document (F := F)) =
    .obj [(lit "communities", .list (p.communities.map fun c => c.back.document)), (lit "time_window", .bool p.time_window),
      (lit "users", .list (p.ordered.map UsmUser.document)), (lit "v1", .bool p.v1), (lit "v2c", .bool p.v2c),
      (lit "v3", .bool p.v3), (lit "version", .int DOCUMENT_VERSION)] := by
  have hdoc : back (p.document (F := F)) = .obj [(lit "communities", .list (backItems (p.communities.map Community.document))),
    (lit "time_window", .bool p.time_window), (lit "users", .list (backItems (p.ordered.map UsmUser.document))),
    (lit "v1", .bool p.v1), (lit "v2c", .bool p.v2c), (lit "v3", .bool p.v3),
    (lit "version", .int DOCUMENT_VERSION)] := rfl
  have husers : (p.ordered.map fun u => back (u.document (F := F))) = p.ordered.map UsmUser.document :=
    List.map_congr_left fun u hu => back_user (h u hu)
  rw [hdoc, backItems_map, backItems_map, husers]
  rfl

variable [Python F]

theorem bytesOf_hex (b : Bytes) : bytesOf (orElse (F := F) (.str (hex b)) (.str [])) = .ok b := by
  have hbytes : bytesOf (F := F) (.str (hex b)) = .ok b := by
    rw [bytesOf, fromhex_hex]
    rfl
  cases b with
  | nil => rfl
  | cons a b => exact hbytes

theorem engineOf_doc {engine_id : Option Bytes} (h : ∀ b ∈ engine_id, b ≠ []) :
    engineOf (F := F) (engineDoc engine_id) = .ok engine_id := by
  cases engine_id with
  | none => rfl
  | some b =>
    have hne := h b rfl
    have hdoc : engineDoc (F := F) (some b) = .str (hex b) := by
      rw [engineDoc, Option.filter_some, if_pos (decide_eq_true hne)]
      rfl
    have htruth : truth (F := F) (.str (hex b)) = true := by
      cases b with
      | nil => exact absurd rfl hne
      | cons a b => rfl
    rw [hdoc, engineOf, if_pos htruth, bytesOf, fromhex_hex]
    rfl

theorem read_user_document (h : Valid u) : read_user (F := F) u.document = .ok (encodeStr u.name, u) := by
  have hread : read_user (F := F) u.document = (do
      let auth_key ← bytesOf (orElse (F := F) (.str (hex u.auth_key)) (.str []))
      let priv_key ← bytesOf (orElse (F := F) (.str (hex u.priv_key)) (.str []))
      let engine_id ← engineOf (engineDoc (F := F) u.engine_id)
      let key ← orRaise .ValueError (encodeUtf8 u.name)
      .ok (key, ⟨u.name, u.auth, u.priv, auth_key, priv_key, engine_id⟩)) := rfl
  rw [hread, bytesOf_hex, ok_bind, bytesOf_hex, ok_bind, engineOf_doc h.engine_id, ok_bind, h.name.encode]
  rfl

theorem read_community_document (c : Community) : read_community (F := F) c.document = .ok c := rfl

/-- The policy that is read of a stored form. -/
def SnmpPolicy.restored (p : SnmpPolicy) : SnmpPolicy where
  v1 := p.v1
  v2c := p.v2c
  v3 := p.v3
  communities := p.communities.map Community.back
  users := keyed (p.ordered.map fun u => (encodeStr u.name, u))
  time_window := p.time_window

omit [Python F] in
theorem each_map {α β : Type} {read : Doc F → Except PyError β} {f : α → Doc F} {g : α → β} {l : List α}
    (h : ∀ a ∈ l, read (f a) = .ok (g a)) : each read (l.map f) = .ok (l.map g) := by
  induction l with
  | nil => rfl
  | cons a l ih =>
    obtain ⟨ha, hl⟩ := List.forall_mem_cons.mp h
    rw [List.map_cons, each, ha, ok_bind, ih hl]
    rfl

theorem iterate_list (l : List (Doc F)) : iterate (orElse (.list l) (.list [])) = .ok l := by
  cases l <;> rfl

theorem read_back {p : SnmpPolicy} (h : ∀ u ∈ p.ordered, Valid u) : read (F := F) (back p.document) = .ok p.restored := by
  rw [back_document h, read, if_pos ⟨rfl, rfl⟩]
  have husers := each_map fun u hu => read_user_document (F := F) (h u hu)
  have hcommunities := each_map (l := p.communities) fun c _ => read_community_document (F := F) c.back
  have hfields : (do
      let users ← each read_user (← iterate (orElse (F := F) (.list (p.ordered.map UsmUser.document)) (.list [])))
      let communities ← each read_community
        (← iterate (orElse (F := F) (.list (p.communities.map fun c => c.back.document)) (.list [])))
      .ok ⟨p.v1, p.v2c, p.v3, communities, keyed users, p.time_window⟩) = (.ok p.restored : Except PyError SnmpPolicy) := by
    rw [iterate_list, ok_bind, husers, ok_bind, iterate_list, ok_bind, hcommunities]
    rfl
  exact hfields

theorem mem_upsert {t : Table Bytes UsmUser} {k : Bytes} {e : Bytes × UsmUser}
    (h : e ∈ (t.upsert k u fun _ => u).entries) : e ∈ t.entries ∨ e = (k, u) := by
  have hget := (Table.get_eq_some _ e.1).mpr h
  rcases eq_or_ne e.1 k with hk | hne
  · rw [hk, Table.get_upsert_self] at hget
    exact .inr (Prod.ext hk (Option.some.inj hget).symm)
  · rw [Table.get_upsert_of_ne _ _ _ _ _ hne] at hget
    exact .inl ((Table.get_eq_some _ e.1).mp hget)

theorem mem_keyed {l : List (Bytes × UsmUser)} {e : Bytes × UsmUser} (h : e ∈ (keyed l).entries) : e ∈ l := by
  have hfold (m : List (Bytes × UsmUser)) (t : Table Bytes UsmUser)
      (hm : e ∈ (m.foldl (fun t e => t.upsert e.1 e.2 fun _ => e.2) t).entries) : e ∈ t.entries ∨ e ∈ m := by
    induction m generalizing t with
    | nil => exact .inl hm
    | cons a m ih =>
      rcases ih _ hm with hin | hin
      · rcases mem_upsert hin with hin | rfl
        · exact .inl hin
        · exact .inr List.mem_cons_self
      · exact .inr (List.mem_cons_of_mem _ hin)
  exact (hfold l .empty h).resolve_left List.not_mem_nil

/-- Users of distinct keys are kept as they come. -/
theorem keyed_entries {l : List (Bytes × UsmUser)} (h : (l.map Prod.fst).Nodup) : (keyed l).entries = l := by
  have hfold (m : List (Bytes × UsmUser)) (t : Table Bytes UsmUser) (hm : ((t.entries ++ m).map Prod.fst).Nodup) :
      (m.foldl (fun t e => t.upsert e.1 e.2 fun _ => e.2) t).entries = t.entries ++ m := by
    induction m generalizing t with
    | nil => exact (List.append_nil _).symm
    | cons a m ih =>
      have hsplit : t.entries ++ a :: m = t.entries ++ [a] ++ m := by simp
      have hfresh : a.1 ∉ t.entries.map Prod.fst := by
        rw [List.map_append, List.map_cons] at hm
        exact fun hin => List.disjoint_of_nodup_append hm hin List.mem_cons_self
      have hset : (t.upsert a.1 a.2 fun _ => a.2).entries = t.entries ++ [a] := by
        rw [Table.upsert, dif_neg hfresh]
      rw [hsplit] at hm ⊢
      rw [List.foldl_cons, ih _ (by rwa [hset]), hset]
  exact hfold l .empty h

theorem mem_ordered {p : SnmpPolicy} : u ∈ p.ordered ↔ ∃ k, (k, u) ∈ p.users.entries := by
  rw [SnmpPolicy.ordered, (Earliest.ordered_perm _ _).mem_iff, List.mem_map]
  exact ⟨fun ⟨e, he, heq⟩ => ⟨e.1, heq ▸ he⟩, fun ⟨k, hk⟩ => ⟨_, hk, rfl⟩⟩

/-- Each user stands under the UTF-8 of the name. -/
def Named (p : SnmpPolicy) : Prop := ∀ e ∈ p.users.entries, encodeUtf8 e.2.name = some e.1

/-- No text of a community has a high surrogate before a low one. -/
def Plain (p : SnmpPolicy) : Prop := ∀ c ∈ p.communities, Apart c.digest ∧ Apart c.hint

section
variable {p : SnmpPolicy}

theorem valid_ordered (h : policy_problems F p = []) : ∀ u ∈ p.ordered, Valid u := by
  intro u hu
  obtain ⟨k, hk⟩ := mem_ordered.mp hu
  rw [policy_problems, List.append_eq_nil_iff] at h
  have hproblems : user_problems F u = [] := List.flatMap_eq_nil_iff.mp h.2 (k, u) hk
  exact valid_of_problems hproblems

theorem communities_back : p.communities.map Community.back = p.communities ↔ Plain p := by
  have hone (c : Community) : c.back = c ↔ Apart c.digest ∧ Apart c.hint := by
    rw [← joined_eq_iff, ← joined_eq_iff]
    exact ⟨fun h => ⟨congrArg Community.digest h, congrArg Community.hint h⟩, fun h => congrArg₂ Community.mk h.1 h.2⟩
  have hmap := List.map_inj_left (l := p.communities) (f := Community.back) (g := id)
  rw [List.map_id] at hmap
  exact hmap.trans (forall₂_congr fun c _ => hone c)

/-- Users that stand under their names are read as they were. -/
theorem restored_users (h : Named p) : p.restored.users.entries.Perm p.users.entries := by
  have hkey (e : Bytes × UsmUser) (he : e ∈ p.users.entries) : (encodeStr e.2.name, e.2) = e := by
    have hname := h e he
    unfold encodeUtf8 at hname
    split at hname
    · exact nomatch hname
    · exact Prod.ext (Option.some.inj hname) rfl
  have hperm : (p.ordered.map fun u => (encodeStr u.name, u)).Perm p.users.entries := by
    refine ((Earliest.ordered_perm _ _).map _).trans (.of_eq ?_)
    rw [List.map_map]
    exact (List.map_congr_left hkey).trans (List.map_id _)
  have hnodup := (hperm.map Prod.fst).nodup_iff.mpr p.users.nodup
  exact .trans (.of_eq (keyed_entries hnodup)) hperm

theorem restored_same (h : ∀ u ∈ p.ordered, Valid u) : Same p.restored p ↔ Named p ∧ Plain p := by
  constructor
  · intro hsame
    refine ⟨fun e he => ?_, communities_back.mp hsame.communities⟩
    have hget := (hsame.users e.1).trans ((Table.get_eq_some _ e.1).mpr he)
    obtain ⟨u, hu, heq⟩ := List.mem_map.mp (mem_keyed ((Table.get_eq_some _ e.1).mp hget))
    obtain ⟨hk, hname⟩ := Prod.mk.inj heq
    rw [← hk, ← hname]
    exact (h u hu).name.encode
  · rintro ⟨hnamed, hplain⟩
    refine ⟨rfl, rfl, rfl, communities_back.mpr hplain, fun k => Option.ext fun u => ?_, rfl⟩
    rw [Table.get_eq_some, Table.get_eq_some]
    exact (restored_users hnamed).mem_iff

theorem restored_problems (h : policy_problems F p = []) (hnamed : Named p) : policy_problems F p.restored = [] := by
  have hsize : p.restored.users.size = p.users.size := (restored_users hnamed).length_eq
  have hlength : p.restored.communities.length = p.communities.length := List.length_map _
  simp only [policy_problems, List.append_eq_nil_iff, hsize, hlength] at h ⊢
  obtain ⟨hfirst, husers⟩ := h
  refine ⟨hfirst, List.flatMap_eq_nil_iff.mpr fun e he => ?_⟩
  exact List.flatMap_eq_nil_iff.mp husers e ((restored_users hnamed).mem_iff.mp he)

end

/-! Which texts are read, and which policies are read back -/

/-- What reading a policy raises, of what was loaded. -/
def Refuses (e : PyError) : Prop := e ∈ [PyError.ValueError, .TypeError, .KeyError, .AttributeError]

instance : DecidablePred Refuses := fun e => inferInstanceAs (Decidable (e ∈ _))

omit [Python F] in
theorem refuses_item (data : Doc F) (key : Str) : Only Refuses (item data key) := by
  cases data with
  | obj l => exact only_of_orRaise (by decide) _
  | _ => exact only_error (by decide)

omit [Python F] in
theorem refuses_get (data : Doc F) (key : Str) (default : Doc F) : Only Refuses (get data key default) := by
  cases data with
  | obj l => exact only_ok
  | _ => exact only_error (by decide)

omit [Python F] in
theorem refuses_iterate (data : Doc F) : Only Refuses (iterate data) := by
  cases data with
  | list l => exact only_ok
  | obj l => exact only_ok
  | str s => exact only_ok
  | _ => exact only_error (by decide)

omit [Python F] in
theorem refuses_bytesOf (data : Doc F) : Only Refuses (bytesOf data) := by
  cases data with
  | str s => exact only_of_orRaise (by decide) _
  | _ => exact only_error (by decide)

theorem refuses_engineOf (data : Doc F) : Only Refuses (engineOf data) := by
  unfold engineOf
  split
  · cases hb : bytesOf data with
    | ok b => exact only_ok
    | error e => exact only_error (refuses_bytesOf data e hb)
  · exact only_ok

theorem refuses_user (data : Doc F) : Only Refuses (read_user data) := by
  apply (refuses_item _ _).bind
  intro name _
  apply (refuses_get _ _ _).bind
  intro auth _
  apply (refuses_get _ _ _).bind
  intro priv _
  apply (refuses_get _ _ _).bind
  intro auth_key _
  apply (refuses_bytesOf _).bind
  intro auth_key _
  apply (refuses_get _ _ _).bind
  intro priv_key _
  apply (refuses_bytesOf _).bind
  intro priv_key _
  apply (refuses_get _ _ _).bind
  intro engine _
  apply (refuses_engineOf _).bind
  intro engine_id _
  exact (only_of_orRaise (by decide) _).bind fun _ _ => only_ok

theorem refuses_community (data : Doc F) : Only Refuses (read_community data) :=
  (refuses_item _ _).bind fun _ _ => (refuses_get _ _ _).bind fun _ _ => only_ok

theorem refuses_read (data : Doc F) : Only Refuses (read data) := by
  unfold read
  split
  · apply (refuses_get _ _ _).bind
    intro users _
    apply (refuses_iterate _).bind
    intro items _
    apply (Only.each fun item _ => refuses_user item).bind
    intro users _
    apply (refuses_get _ _ _).bind
    intro v1 _
    apply (refuses_get _ _ _).bind
    intro v2c _
    apply (refuses_get _ _ _).bind
    intro v3 _
    apply (refuses_get _ _ _).bind
    intro time_window _
    apply (refuses_get _ _ _).bind
    intro communities _
    apply (refuses_iterate _).bind
    intro items _
    exact (Only.each fun item _ => refuses_community item).bind fun _ _ => only_ok
  · exact only_error (by decide)

variable [PyFloat F]

variable (F) in
/-- What a text is to be answered with: the policy that it holds and whatever is wrong with that, or the default and one
problem. -/
def Answered (text : Str) (r : SnmpPolicy × List Str) : Prop :=
  match reads (F := F) (Python.room F) text >>= read with
  | .ok policy => r = (policy, policy_problems F policy)
  | .error _ => r.1 = DEFAULT_POLICY ∧ ∃ problem, r.2 = [problem]

theorem from_document_iff (text : Str) : (∃ r, from_document F text = .ok r ∧ Answered F text r) ↔
    reads (F := F) (Python.room F) text ≠ .error .RecursionError := by
  have hcatches : Catches [.ValueError, .TypeError, .KeyError, .AttributeError] := by decide
  have hread (data : Doc F) : read data ≠ .error .OverflowError := fun h => absurd (refuses_read data _ h) (by decide)
  have hreads := except_reads hcatches (fun data : Doc F => fun e he => .inl (refuses_read data e he)) (Python.room F) text
  rw [and_iff_left fun data _ => hread data] at hreads
  rw [← hreads]
  constructor
  · rintro ⟨r, h, -⟩
    obtain ⟨o, ho, -⟩ := bind_ok.mp h
    exact ⟨o, ho⟩
  · rintro ⟨o, ho⟩
    refine ⟨_, bind_ok.mpr ⟨o, ho, rfl⟩, ?_⟩
    unfold Answered
    rcases except_ok.mp ho with ⟨policy, hpolicy, rfl⟩ | ⟨e, -, he, rfl⟩
    · rw [hpolicy]
      rfl
    · rw [he]
      exact ⟨rfl, _, rfl⟩

omit [Python F] [PyFloat F] in
theorem fitsAll_map {α : Type} {f : α → Doc F} (h : ∀ a, Fits MAX_STR_DIGITS (f a)) (l : List α) :
    FitsAll MAX_STR_DIGITS (l.map f) := by
  induction l with
  | nil => trivial
  | cons a l ih => exact ⟨h a, ih⟩

omit [Python F] [PyFloat F] in
theorem fits_document (p : SnmpPolicy) : Fits MAX_STR_DIGITS (p.document : Doc F) := by
  have hengine (engine_id : Option Bytes) : Fits MAX_STR_DIGITS (engineDoc (F := F) engine_id) := by
    unfold engineDoc
    cases engine_id.filter (· ≠ []) <;> trivial
  have hcommunities := fitsAll_map (f := Community.document (F := F)) (fun _ => ⟨trivial, trivial, trivial⟩) p.communities
  have husers := fitsAll_map (f := UsmUser.document (F := F))
    (fun u => ⟨trivial, trivial, hengine u.engine_id, trivial, trivial, trivial, trivial⟩) p.ordered
  exact ⟨hcommunities, trivial, husers, trivial, trivial, trivial, .inr (by decide), trivial⟩

/-- A policy without problems is read back where its users stand under their names and no text is joined. -/
theorem returned_iff [LawfulPyFloat F] {p : SnmpPolicy} (h : policy_problems F p = []) :
    (∃ q, from_document F (to_document F p) = .ok (q, []) ∧ Same q p) ↔
      nesting (p.document : Doc F) ≤ Python.room F ∧ Named p ∧ Plain p := by
  have hvalid := valid_ordered h
  have hreads : reads (Python.room F) (to_document F p) =
      within (nesting (p.document : Doc F)) (Python.room F) (back p.document) :=
    reads_spaced (List.forall_mem_nil _) (fits_document p) (Python.room F)
  unfold from_document
  rw [hreads, within]
  by_cases hroom : nesting (p.document : Doc F) ≤ Python.room F
  · rw [if_pos hroom, ok_bind, read_back hvalid, and_iff_right hroom, ← restored_same hvalid]
    constructor
    · rintro ⟨q, hq, hsame⟩
      obtain ⟨rfl, -⟩ := Prod.mk.inj (Except.ok.inj hq)
      exact hsame
    · intro hsame
      have hproblems := restored_problems h ((restored_same hvalid).mp hsame).1
      exact ⟨p.restored, congrArg (fun problems => Except.ok (p.restored, problems)) hproblems, hsame⟩
  · rw [if_neg hroom]
    exact iff_of_false (fun ⟨_, hq, _⟩ => nomatch hq) fun h => hroom h.1

end NetCoreNoc.Policies.Snmp
