import Mathlib
import NetCoreNoc.Base64
import NetCoreNoc.Checks
import NetCoreNoc.Json.Dumps
import NetCoreNoc.Json.Encoding
import NetCoreNoc.Json.Whole
import NetCoreNoc.Sha256

/-! The lease that an agent presents: what is signed, and how a text is read as one (`engine/noc/lease.py`). -/
namespace NetCoreNoc.Noc.Token
open Json Base64 Checks

def ISSUER : Str := lit "netcorenoc"
def AUDIENCE : Str := lit "netcorenoc-noc-executor"
def LEEWAY_S : ℤ := 30
def MAX_LEASE_CHARS : ℕ := 4096

/-- The claims of a lease: texts and whole numbers, or whatever a payload has in their place. -/
structure Claims (T N : Type) where
  jti : T
  sub : T
  sid : N
  ref : T
  ver : N
  kind : T
  host : T
  port : N
  scope : T
  iat : N
  nbf : N
  exp : N
  iss : T
  aud : T
  deriving DecidableEq

inductive Raised where
  | LeaseError (message : String)
  | UnicodeEncodeError
  | TypeError
  deriving DecidableEq

def Claims.map {T T' N N' : Type} (c : Claims T N) (f : T → T') (g : N → N') : Claims T' N' :=
  ⟨f c.jti, f c.sub, g c.sid, f c.ref, g c.ver, f c.kind, f c.host, g c.port, f c.scope, g c.iat, g c.nbf, g c.exp,
    f c.iss, f c.aud⟩

def malformed : Raised := .LeaseError "malformed"

/-- A step that raises where it comes to nothing. -/
def raising {α : Type} (e : Raised) : Option α → Except Raised α
  | some a => .ok a
  | none => .error e

def dot : CodePoint := 46

/-- `_b64` -/
def b64 (data : List UInt8) : Str := (urlsafe_b64encode data).rdropWhile (· = pad)

/-- `_unb64` -/
def unb64 (text : Str) : Option (List UInt8) := urlsafe_b64decode (text ++ padding text)

/-- `text.encode("ascii")` -/
def encode_ascii (text : Str) : Option (List UInt8) :=
  if text.all (·.val < 0x80) then some (text.map fun c => UInt8.ofNat c.val) else none

variable {F : Type}

namespace Claims

/-- `asdict` -/
def asdict (c : Claims (Doc F) (Doc F)) : List (Str × Doc F) :=
  [(lit "jti", c.jti), (lit "sub", c.sub), (lit "sid", c.sid), (lit "ref", c.ref), (lit "ver", c.ver),
    (lit "kind", c.kind), (lit "host", c.host), (lit "port", c.port), (lit "scope", c.scope), (lit "iat", c.iat),
    (lit "nbf", c.nbf), (lit "exp", c.exp), (lit "iss", c.iss), (lit "aud", c.aud)]

/-- The claims that are issued, as values. -/
def body (c : Claims Str ℤ) : Claims (Doc F) (Doc F) := c.map .str .int

def FIELDS : List Str :=
  ["jti", "sub", "sid", "ref", "ver", "kind", "host", "port", "scope", "iat", "nbf", "exp", "iss", "aud"].map lit

/-- `Claims(**body)`: two of the fields have a default, and no other key is taken. -/
def of_body : Doc F → Option (Claims (Doc F) (Doc F))
  | .obj l => if l.all (·.1 ∈ FIELDS) then do
      let jti ← l.lookup (lit "jti")
      let sub ← l.lookup (lit "sub")
      let sid ← l.lookup (lit "sid")
      let ref ← l.lookup (lit "ref")
      let ver ← l.lookup (lit "ver")
      let kind ← l.lookup (lit "kind")
      let host ← l.lookup (lit "host")
      let port ← l.lookup (lit "port")
      let access ← l.lookup (lit "scope")
      let iat ← l.lookup (lit "iat")
      let nbf ← l.lookup (lit "nbf")
      let exp ← l.lookup (lit "exp")
      some ⟨jti, sub, sid, ref, ver, kind, host, port, access, iat, nbf, exp,
        (l.lookup (lit "iss")).getD (.str ISSUER), (l.lookup (lit "aud")).getD (.str AUDIENCE)⟩
    else none
  | _ => none

end Claims

/-- A value that is this text. -/
def isText (s : Str) : Doc F → Bool
  | .str t => t = s
  | _ => false

/-- `_HEADER` -/
def HEADER : List (Str × Doc F) := [(lit "alg", .str (lit "HS256")), (lit "typ", .str (lit "JWT"))]

/-- `header == _HEADER` -/
def is_header : Doc F → Bool
  | .obj l => l.length = 2 && (l.lookup (lit "alg")).any (isText (lit "HS256")) &&
      (l.lookup (lit "typ")).any (isText (lit "JWT"))
  | _ => false

/-- A comparison with a number. -/
def compared (whole : ℤ → Bool) (float : F → Bool) : Doc F → Except Raised Bool
  | .int n => .ok (whole n)
  | .bool b => .ok (whole b.toNat)
  | .float x => .ok (float x)
  | _ => .error .TypeError

section Issue
variable (F) [PyFloat F] [PyOrder F] (sign : List UInt8 → List UInt8) (c : Claims Str ℤ)

/-- A text that is dumped, encoded; none is an integer of too many digits. -/
def encoded (l : List (Str × Doc F)) : Option Str := (dumps (Doc.obj l).value).map fun text => b64 (encodeStr text)

def signing_input : Option Str := do
  let header ← encoded F HEADER
  let payload ← encoded F c.body.asdict
  some (header ++ dot :: payload)

def issue : Option Str := do
  let text ← signing_input F c
  let message ← encode_ascii text
  some (text ++ dot :: b64 (sign message))

end Issue

section Decode
variable [PyFloat F] (sign : List UInt8 → List UInt8) (expired early : ℚ → F → Bool)

/-- The claims that a lease carries signed, whatever the time. -/
def verified (lease : Str) : Except Raised (Claims (Doc F) (Doc F)) := do
  ensure (lease ≠ [] ∧ lease.length ≤ MAX_LEASE_CHARS ∧ lease.count dot = 2) malformed
  match lease.splitOn dot with
  | [header_b64, payload_b64, signature_b64] => do
    let header : Doc F ← raising malformed ((unb64 header_b64).bind loadsBytes)
    let signature ← raising malformed (unb64 signature_b64)
    ensure (is_header header = true) (.LeaseError "unsupported algorithm")
    let message ← raising .UnicodeEncodeError (encode_ascii (header_b64 ++ dot :: payload_b64))
    ensure (sign message = signature) (.LeaseError "bad signature")
    let claims ← raising malformed (((unb64 payload_b64).bind loadsBytes).bind Claims.of_body)
    ensure (isText ISSUER claims.iss = true ∧ isText AUDIENCE claims.aud = true)
      (.LeaseError "wrong issuer or audience")
    .ok claims
  | _ => .error malformed

/-- `decode`, with what a comparison of the clock with a float comes to. -/
def decode (lease : Str) (now : ℚ) : Except Raised (Claims (Doc F) (Doc F)) := do
  let claims ← verified sign lease
  let late ← compared (fun exp => exp + LEEWAY_S < now) (expired now) claims.exp
  ensure (late = false) (.LeaseError "expired")
  let ahead ← compared (fun nbf => now + LEEWAY_S < nbf) (early now) claims.nbf
  ensure (ahead = false) (.LeaseError "not yet valid")
  .ok claims

end Decode

section Text

theorem raising_ok {α : Type} {e : Raised} {o : Option α} {a : α} : raising e o = .ok a ↔ o = some a := by
  cases o with
  | none =>
    constructor <;> intro h <;> cases h
  | some b =>
    constructor <;> intro h <;> cases h <;> rfl

theorem unb64_b64 (data : List UInt8) : unb64 (b64 data) = some data := by
  obtain ⟨body, -, hstrip, hread⟩ := urlsafe_strip data
  rw [unb64, b64, hstrip, hread]

theorem b64_chars (data : List UInt8) : ∀ c ∈ b64 data, c.val < 0x80 ∧ c ≠ dot := by
  obtain ⟨body, hbody, hstrip, -⟩ := urlsafe_strip data
  rw [b64, hstrip]
  exact fun c hc => ⟨(hbody c hc).1, (hbody c hc).2.2⟩

theorem ascii_unb64 {text : Str} {data : List UInt8} (h : unb64 text = some data) : ∀ c ∈ text, c.val < 0x80 := by
  unfold unb64 urlsafe_b64decode at h
  split at h
  · next hall =>
    exact fun c hc => of_decide_eq_true (List.all_eq_true.mp hall c (List.mem_append_left _ hc))
  · cases h

theorem encode_ascii_of {text : Str} (h : ∀ c ∈ text, c.val < 0x80) :
    encode_ascii text = some (text.map fun c => UInt8.ofNat c.val) :=
  if_pos (List.all_eq_true.mpr fun c hc => decide_eq_true (h c hc))

/-- Two texts of the same ASCII bytes are one. -/
theorem encode_ascii_inj {s t : Str} {m : List UInt8} (hs : encode_ascii s = some m) (ht : encode_ascii t = some m) :
    s = t := by
  have hback {s : Str} (h : encode_ascii s = some m) :
      m.map (fun b => (Fin.ofNat 0x110000 b.toNat : CodePoint)) = s := by
    unfold encode_ascii at h
    split at h
    · next hall =>
      cases h
      rw [List.map_map]
      conv_rhs => rw [← List.map_id s]
      refine List.map_congr_left fun c hc => ?_
      have hc := of_decide_eq_true (List.all_eq_true.mp hall c hc)
      apply Fin.ext
      change (UInt8.ofNat c.val).toNat % 0x110000 = c.val
      rw [UInt8.toNat_ofNat']
      omega
    · cases h
  rw [← hback hs, hback ht]

/-- A value that is no list and no object. -/
def scalar : Doc F → Bool
  | .list _ | .obj _ => false
  | _ => true

variable [PyFloat F] [PyOrder F]

theorem scalar_doc {j j' : Doc F} (hj : scalar j = true) (h : j.value.doc = some j') : j' = j := by
  cases j with
  | int n =>
    simp only [Doc.value, Value.doc] at h
    split at h
    · exact (Option.some.inj h).symm
    · cases h
  | list l => cases hj
  | obj l => cases hj
  | null => exact (Option.some.inj h).symm
  | bool b => exact (Option.some.inj h).symm
  | float x => exact (Option.some.inj h).symm
  | str s => exact (Option.some.inj h).symm

theorem entryDocs_scalars {l : List (Str × Doc F)} (hl : ∀ e ∈ l, scalar e.2 = true) {r : List (Key F × Doc F)}
    (h : entryDocs (entryValues l) = some r) : r = l.map fun e => (.str e.1, e.2) := by
  induction l generalizing r with
  | nil => exact (Option.some.inj h).symm
  | cons e l ih =>
    obtain ⟨k, j⟩ := e
    obtain ⟨hj, hl⟩ := List.forall_mem_cons.mp hl
    rw [entryValues, entryDocs] at h
    split at h
    · next j' r' hdoc hrest =>
      cases h
      rw [scalar_doc hj hdoc, ih hl hrest]
      rfl
    · cases h

variable [LawfulPyFloat F]

/-- An object of scalars is written in the order of its keys, and reads as it is written. -/
theorem encoded_scalars {l l' : List (Str × Doc F)} (hl : ∀ e ∈ l, scalar e.2 = true)
    (hsort : sortKeys (l.map fun e => (Key.str (F := F) e.1, e.2)) = some (l'.map fun e => (.str e.1, e.2))) {t : Str}
    (h : encoded F l = some t) :
    (unb64 t).bind loadsBytes = some (back (.obj l')) ∧ ∀ c ∈ t, c.val < 0x80 ∧ c ≠ dot := by
  obtain ⟨written, hdumps, rfl⟩ := Option.map_eq_some_iff.mp h
  obtain ⟨j, hj, rfl⟩ := Option.map_eq_some_iff.mp hdumps
  have hfits := fits_doc _ j hj
  rw [Doc.value, Value.doc] at hj
  obtain ⟨r, hr, rfl⟩ := Option.map_eq_some_iff.mp hj
  obtain ⟨q, hq, ht⟩ := Option.bind_eq_some_iff.mp hr
  obtain ⟨p, hp, hs⟩ := Option.bind_eq_some_iff.mp hq
  rw [entryDocs_scalars hl hp, hsort] at hs
  cases hs
  rw [keyTexts_strings] at ht
  cases ht
  exact ⟨by rw [unb64_b64, Option.bind_some, loadsBytes_text hfits], b64_chars _⟩

end Text

section Written
variable [PyFloat F] [PyOrder F] [LawfulPyFloat F]

/-- Claims as they are read back: a surrogate pair is one code point. -/
def Claims.seen (c : Claims Str ℤ) : Claims (Doc F) (Doc F) := c.map (fun s => .str (joined s)) .int

/-- The fields in the order of their names. -/
def Claims.ordered (c : Claims (Doc F) (Doc F)) : List (Str × Doc F) :=
  [(lit "aud", c.aud), (lit "exp", c.exp), (lit "host", c.host), (lit "iat", c.iat), (lit "iss", c.iss),
    (lit "jti", c.jti), (lit "kind", c.kind), (lit "nbf", c.nbf), (lit "port", c.port), (lit "ref", c.ref),
    (lit "scope", c.scope), (lit "sid", c.sid), (lit "sub", c.sub), (lit "ver", c.ver)]

omit [PyFloat F] [LawfulPyFloat F] in
theorem sort_asdict (c : Claims (Doc F) (Doc F)) :
    sortKeys (c.asdict.map fun e => (Key.str (F := F) e.1, e.2)) = some (c.ordered.map fun e => (.str e.1, e.2)) :=
  rfl

omit [PyFloat F] [LawfulPyFloat F] [PyOrder F] in
theorem back_ordered (c : Claims Str ℤ) : back (.obj c.body.ordered : Doc F) = .obj c.seen.ordered := by
  have hkeys : ((backEntries c.body.ordered : List (Str × Doc F)).map Prod.fst).Nodup := by
    rw [backEntries_keys, show (c.body.ordered : List (Str × Doc F)).map (fun e => joined e.1) =
      ["aud", "exp", "host", "iat", "iss", "jti", "kind", "nbf", "port", "ref", "scope", "sid", "sub", "ver"].map lit
      from rfl]
    decide
  rw [back, dict_eq hkeys]
  rfl

omit [PyFloat F] [LawfulPyFloat F] [PyOrder F] in
theorem of_body_ordered (c : Claims (Doc F) (Doc F)) : Claims.of_body (.obj c.ordered) = some c := by
  have hall : ∀ k ∈ ["aud", "exp", "host", "iat", "iss", "jti", "kind", "nbf", "port", "ref", "scope", "sid", "sub",
      "ver"].map lit, k ∈ Claims.FIELDS := by decide
  have hkeys : c.ordered.all (·.1 ∈ Claims.FIELDS) = true :=
    List.all_eq_true.mpr fun e he => decide_eq_true (hall _ (List.mem_map_of_mem he))
  have jti : c.ordered.lookup (lit "jti") = some c.jti := rfl
  have sub : c.ordered.lookup (lit "sub") = some c.sub := rfl
  have sid : c.ordered.lookup (lit "sid") = some c.sid := rfl
  have ref : c.ordered.lookup (lit "ref") = some c.ref := rfl
  have ver : c.ordered.lookup (lit "ver") = some c.ver := rfl
  have kind : c.ordered.lookup (lit "kind") = some c.kind := rfl
  have host : c.ordered.lookup (lit "host") = some c.host := rfl
  have port : c.ordered.lookup (lit "port") = some c.port := rfl
  have scope : c.ordered.lookup (lit "scope") = some c.scope := rfl
  have iat : c.ordered.lookup (lit "iat") = some c.iat := rfl
  have nbf : c.ordered.lookup (lit "nbf") = some c.nbf := rfl
  have exp : c.ordered.lookup (lit "exp") = some c.exp := rfl
  have iss : c.ordered.lookup (lit "iss") = some c.iss := rfl
  have aud : c.ordered.lookup (lit "aud") = some c.aud := rfl
  rw [Claims.of_body, if_pos hkeys]
  simp only [jti, sub, sid, ref, ver, kind, host, port, scope, iat, nbf, exp, iss, aud, Option.bind_eq_bind,
    Option.bind_some, Option.getD_some]

theorem read_header {t : Str} (h : encoded F HEADER = some t) :
    (∃ header : Doc F, (unb64 t).bind loadsBytes = some header ∧ is_header header = true) ∧
      ∀ c ∈ t, c.val < 0x80 ∧ c ≠ dot := by
  have hscalar : ∀ e ∈ (HEADER : List (Str × Doc F)), scalar e.2 = true := by
    refine List.forall_mem_cons.mpr ⟨rfl, List.forall_mem_cons.mpr ⟨rfl, fun e he => absurd he List.not_mem_nil⟩⟩
  obtain ⟨hread, hchars⟩ := encoded_scalars hscalar (show _ = some (HEADER.map _) from rfl) h
  exact ⟨⟨_, hread, rfl⟩, hchars⟩

theorem read_payload {c : Claims Str ℤ} {t : Str} (h : encoded F c.body.asdict = some t) :
    ((unb64 t).bind loadsBytes).bind Claims.of_body = some (c.seen : Claims (Doc F) (Doc F)) ∧
      ∀ x ∈ t, x.val < 0x80 ∧ x ≠ dot := by
  have hscalar : ∀ e ∈ (c.body.asdict : List (Str × Doc F)), scalar e.2 = true := by
    intro e he
    simp only [Claims.asdict, Claims.body, Claims.map, List.mem_cons, List.not_mem_nil, or_false] at he
    rcases he with rfl | rfl | rfl | rfl | rfl | rfl | rfl | rfl | rfl | rfl | rfl | rfl | rfl | rfl <;> rfl
  obtain ⟨hread, hchars⟩ := encoded_scalars hscalar (sort_asdict c.body) h
  exact ⟨by rw [hread, Option.bind_some, back_ordered, of_body_ordered], hchars⟩

variable {sign : List UInt8 → List UInt8} {c : Claims Str ℤ}

omit [LawfulPyFloat F] in
theorem signing_input_eq {t : Str} (h : signing_input F c = some t) :
    ∃ header payload, encoded F HEADER = some header ∧ encoded F c.body.asdict = some payload ∧
      t = header ++ dot :: payload := by
  simp only [signing_input, Option.bind_eq_bind, Option.bind_eq_some_iff] at h
  obtain ⟨header, hheader, payload, hpayload, h⟩ := h
  exact ⟨header, payload, hheader, hpayload, (Option.some.inj h).symm⟩

/-- Three texts with no dot in them, dotted. -/
theorem splitOn_dotted {h p s : Str} (hh : dot ∉ h) (hp : dot ∉ p) (hs : dot ∉ s) :
    (h ++ dot :: (p ++ dot :: s)).splitOn dot = [h, p, s] ∧ (h ++ dot :: (p ++ dot :: s)).count dot = 2 := by
  refine ⟨?_, ?_⟩
  · rw [List.splitOn_append_cons_self_of_not_mem hh, List.splitOn_append_cons_self_of_not_mem hp,
      List.splitOn_eq_singleton hs]
  · rw [List.count_append, List.count_cons_self, List.count_append, List.count_cons_self,
      List.count_eq_zero_of_not_mem hh, List.count_eq_zero_of_not_mem hp, List.count_eq_zero_of_not_mem hs]

/-- A lease that was issued, if it is not too long, is read as far as its issuer and its audience. -/
theorem verified_issue {lease : Str} (h : issue F sign c = some lease) (hlong : lease.length ≤ MAX_LEASE_CHARS) :
    (verified sign lease : Except Raised (Claims (Doc F) (Doc F))) =
      ensure (isText ISSUER (c.seen : Claims (Doc F) (Doc F)).iss = true ∧
        isText AUDIENCE (c.seen : Claims (Doc F) (Doc F)).aud = true) (.LeaseError "wrong issuer or audience") >>=
      fun _ => .ok c.seen := by
  simp only [issue, Option.bind_eq_bind, Option.bind_eq_some_iff] at h
  obtain ⟨t, ht, message, hmessage, h⟩ := h
  obtain ⟨header, payload, hheader, hpayload, rfl⟩ := signing_input_eq ht
  cases h
  obtain ⟨⟨doc, hdoc, his⟩, hchars⟩ := read_header hheader
  obtain ⟨hbody, hchars'⟩ := read_payload hpayload
  obtain ⟨hsplit, hcount⟩ := splitOn_dotted (fun hd => (hchars _ hd).2 rfl) (fun hd => (hchars' _ hd).2 rfl)
    (fun hd => (b64_chars (sign message) _ hd).2 rfl)
  rw [List.append_assoc, List.cons_append] at hlong ⊢
  unfold verified
  rw [hsplit]
  have hne : header ++ dot :: (payload ++ dot :: b64 (sign message)) ≠ [] := by simp
  have hpass {p : Prop} [Decidable p] {e : Raised} (h : p) : ensure p e = .ok () := if_pos h
  simp only [hpass (And.intro hne (And.intro hlong hcount)), ok_bind, hdoc, unb64_b64, raising, hpass his, hmessage,
    hpass trivial, hbody]

variable (expired early : ℚ → F → Bool)

/-- What is issued is read back while it is valid. -/
theorem decode_issue {lease : Str} {now : ℚ} (h : issue F sign c = some lease)
    (hlong : lease.length ≤ MAX_LEASE_CHARS) (hiss : joined c.iss = ISSUER) (haud : joined c.aud = AUDIENCE)
    (hnbf : c.nbf ≤ now + LEEWAY_S) (hexp : now ≤ c.exp + LEEWAY_S) :
    decode sign expired early lease now = .ok c.seen := by
  have hpass {p : Prop} [Decidable p] {e : Raised} (h : p) : ensure p e = .ok () := if_pos h
  have his : isText ISSUER (c.seen : Claims (Doc F) (Doc F)).iss = true ∧
      isText AUDIENCE (c.seen : Claims (Doc F) (Doc F)).aud = true := ⟨decide_eq_true hiss, decide_eq_true haud⟩
  have hlate : decide ((c.exp : ℚ) + LEEWAY_S < now) = false := decide_eq_false (not_lt.mpr hexp)
  have hahead : decide (now + LEEWAY_S < (c.nbf : ℚ)) = false := decide_eq_false (not_lt.mpr hnbf)
  rw [decode, verified_issue h hlong, hpass his]
  simp only [ok_bind, Claims.seen, Claims.map, compared, hlate, hahead, hpass trivial]

end Written

section Read
variable [PyFloat F] {sign : List UInt8 → List UInt8} {expired early : ℚ → F → Bool} {lease : Str}

/-- What a lease that is read has shown. -/
theorem verified_ok {d : Claims (Doc F) (Doc F)} (h : verified sign lease = .ok d) :
    ∃ header_b64 payload_b64 signature_b64 message, lease.splitOn dot = [header_b64, payload_b64, signature_b64] ∧
      lease.count dot = 2 ∧ encode_ascii (header_b64 ++ dot :: payload_b64) = some message ∧
      unb64 signature_b64 = some (sign message) ∧
      ((unb64 payload_b64).bind loadsBytes).bind Claims.of_body = some d := by
  unfold verified at h
  simp only [bind_ok, ensure_ok] at h
  obtain ⟨-, ⟨-, -, hcount⟩, h⟩ := h
  split at h
  rotate_left
  · cases h
  next header_b64 payload_b64 signature_b64 hsplit =>
  simp only [bind_ok, ensure_ok] at h
  obtain ⟨-, -, signature, hsignature, -, -, message, hmessage, -, hsign, claims, hclaims, -, -, h⟩ := h
  cases h
  obtain rfl := hsign
  exact ⟨header_b64, payload_b64, signature_b64, message, hsplit, hcount, raising_ok.mp hmessage,
    raising_ok.mp hsignature, raising_ok.mp hclaims⟩

/-- A lease whose header and payload are ASCII is read, or refused as a lease. -/
theorem verified_only (hpayload : ∀ header_b64 payload_b64 signature_b64,
      lease.splitOn dot = [header_b64, payload_b64, signature_b64] → ∀ c ∈ payload_b64, c.val < 0x80) :
    Only (fun e => ∃ message, e = .LeaseError message) (verified (F := F) sign lease) := by
  have hraise {α : Type} (o : Option α) :
      Only (fun e => ∃ message, e = .LeaseError message) (raising malformed o) := by
    intro e he
    cases o with
    | some a => cases he
    | none => exact ⟨"malformed", (Except.error.inj he).symm⟩
  unfold verified
  refine (only_ensure ⟨_, rfl⟩).bind fun _ _ => ?_
  split
  rotate_left
  · exact only_error ⟨_, rfl⟩
  next header_b64 payload_b64 signature_b64 hsplit =>
  refine (hraise _).bind fun header hheader => (hraise _).bind fun signature _ =>
    (only_ensure ⟨_, rfl⟩).bind fun _ _ => ?_
  -- The header was decoded, so it is ASCII; of the payload nothing is known before the signature is read.
  obtain ⟨data, hdata, -⟩ := Option.bind_eq_some_iff.mp (raising_ok.mp hheader)
  have hascii : ∀ c ∈ header_b64 ++ dot :: payload_b64, c.val < 0x80 := by
    intro c hc
    rcases List.mem_append.mp hc with hc | hc
    · exact ascii_unb64 hdata c hc
    · rcases List.mem_cons.mp hc with rfl | hc
      · decide
      · exact hpayload _ _ _ hsplit c hc
  rw [encode_ascii_of hascii]
  refine only_ok.bind fun _ _ => (only_ensure ⟨_, rfl⟩).bind fun _ _ => (hraise _).bind fun claims _ =>
    (only_ensure ⟨_, rfl⟩).bind fun _ _ => only_ok

/-- What a decoded lease has shown before its clock is read. -/
theorem decode_ok {now : ℚ} {d : Claims (Doc F) (Doc F)} (h : decode sign expired early lease now = .ok d) :
    verified sign lease = .ok d := by
  simp only [decode, bind_ok, ensure_ok] at h
  obtain ⟨claims, hclaims, _, -, -, -, _, -, -, -, h⟩ := h
  cases h
  exact hclaims

/-- Where the payload is no ASCII text, the signed text cannot be encoded, and that error is not a lease's own. -/
theorem decode_payload {h p s : Str} {header : Doc F} {signature : List UInt8} {now : ℚ} (hh : dot ∉ h) (hp : dot ∉ p)
    (hs : dot ∉ s) (hlong : (h ++ dot :: (p ++ dot :: s)).length ≤ MAX_LEASE_CHARS)
    (hheader : (unb64 h).bind loadsBytes = some header) (his : is_header header = true)
    (hsignature : unb64 s = some signature) (hpayload : encode_ascii (h ++ dot :: p) = none) :
    decode sign expired early (h ++ dot :: (p ++ dot :: s)) now = .error .UnicodeEncodeError := by
  obtain ⟨hsplit, hcount⟩ := splitOn_dotted hh hp hs
  have hne : h ++ dot :: (p ++ dot :: s) ≠ [] := by simp
  have hpass {p : Prop} [Decidable p] {e : Raised} (h : p) : ensure p e = .ok () := if_pos h
  have herror {α β : Type} {e : Raised} (f : α → Except Raised β) :
      (.error e : Except Raised α) >>= f = .error e := rfl
  unfold decode verified
  rw [hsplit]
  simp only [hpass (And.intro hne (And.intro hlong hcount)), ok_bind, hheader, hsignature, raising, hpass his,
    hpayload, herror]

end Read

section Signed
variable (F) [PyFloat F] [PyOrder F] (sign : List UInt8 → List UInt8) (issued : List (Claims Str ℤ))

/-- A signature that this lease verifies under was given out, for the text it signs. -/
def Unforged (lease : Str) : Prop :=
  ∀ header_b64 payload_b64 signature_b64 message, lease.splitOn dot = [header_b64, payload_b64, signature_b64] →
    encode_ascii (header_b64 ++ dot :: payload_b64) = some message → unb64 signature_b64 = some (sign message) →
    ∃ c ∈ issued, ∃ text, signing_input F c = some text ∧ encode_ascii text = some message

variable {F} {sign} {issued} [LawfulPyFloat F] {lease : Str}

/-- A lease that was issued needs no forging. -/
theorem unforged_issue {c : Claims Str ℤ} (hc : c ∈ issued) (h : issue F sign c = some lease) :
    Unforged F sign issued lease := by
  intro header_b64 payload_b64 signature_b64 message hsplit hmessage _
  simp only [issue, Option.bind_eq_bind, Option.bind_eq_some_iff] at h
  obtain ⟨t, ht, m, hm, h⟩ := h
  obtain ⟨header, payload, hheader, hpayload, rfl⟩ := signing_input_eq ht
  cases h
  obtain ⟨hsplit', -⟩ := splitOn_dotted (fun hd => ((read_header hheader).2 _ hd).2 rfl)
    (fun hd => ((read_payload hpayload).2 _ hd).2 rfl) (fun hd => (b64_chars (sign m) _ hd).2 rfl)
  rw [List.append_assoc, List.cons_append, hsplit'] at hsplit
  cases hsplit
  exact ⟨c, hc, _, ht, hmessage⟩

/-- A lease that is read carries the two texts of one that was issued, and its claims. -/
theorem verified_issued {d : Claims (Doc F) (Doc F)} (hunforged : Unforged F sign issued lease)
    (h : verified sign lease = .ok d) :
    ∃ c ∈ issued, ∃ header payload signature, encoded F HEADER = some header ∧
      encoded F c.body.asdict = some payload ∧ lease.splitOn dot = [header, payload, signature] ∧ d = c.seen := by
  obtain ⟨h_b64, p_b64, s_b64, message, hsplit, hcount, hmessage, hsignature, hbody⟩ := verified_ok h
  obtain ⟨c, hc, t, ht, hencode⟩ := hunforged _ _ _ _ hsplit hmessage hsignature
  obtain ⟨header, payload, hheader, hpayload, rfl⟩ := signing_input_eq ht
  have htext : h_b64 ++ dot :: p_b64 = header ++ dot :: payload := encode_ascii_inj hmessage hencode
  have hdots : dot ∉ h_b64 ∧ dot ∉ p_b64 := by
    have hjoin : h_b64 ++ dot :: (p_b64 ++ dot :: s_b64) = lease := by
      rw [show lease = [dot].intercalate (lease.splitOn dot) from (List.intercalate_splitOn dot).symm, hsplit]
      simp [List.intercalate]
    rw [← hjoin, List.count_append, List.count_cons_self, List.count_append, List.count_cons_self] at hcount
    exact ⟨List.count_eq_zero.mp (by omega), List.count_eq_zero.mp (by omega)⟩
  have hparts := congrArg (List.splitOn dot) htext
  rw [List.splitOn_append_cons_self_of_not_mem hdots.1, List.splitOn_eq_singleton hdots.2,
    List.splitOn_append_cons_self_of_not_mem fun hd => ((read_header hheader).2 _ hd).2 rfl,
    List.splitOn_eq_singleton fun hd => ((read_payload hpayload).2 _ hd).2 rfl] at hparts
  cases hparts
  exact ⟨c, hc, h_b64, p_b64, s_b64, hheader, hpayload, hsplit,
    Option.some.inj (hbody.symm.trans (read_payload hpayload).1)⟩

/-- Texts in which no half of a surrogate pair meets the other. -/
def Claims.Apart (c : Claims Str ℤ) : Prop :=
  ∀ s ∈ [c.jti, c.sub, c.ref, c.kind, c.host, c.scope], Json.Apart s

variable (expired early : ℚ → F → Bool)

variable (sign) in
theorem lease_tokens :
    (∀ (c : Claims Str ℤ) lease (now : ℚ), issue F sign c = some lease → lease.length ≤ MAX_LEASE_CHARS → c.Apart →
        c.iss = ISSUER → c.aud = AUDIENCE → c.nbf ≤ now + LEEWAY_S → now ≤ c.exp + LEEWAY_S →
        decode sign expired early lease now = .ok c.body) ∧
      ∀ (issued : List (Claims Str ℤ)) lease, Unforged F sign issued lease → ∀ now : ℚ,
        (∀ d, decode sign expired early lease now = .ok d → ∃ c ∈ issued, ∃ header payload signature,
          encoded F HEADER = some header ∧ encoded F c.body.asdict = some payload ∧
            lease.splitOn dot = [header, payload, signature] ∧ d = c.seen) ∧
          ((∀ header_b64 payload_b64 signature_b64, lease.splitOn dot = [header_b64, payload_b64, signature_b64] →
              ∀ c ∈ payload_b64, c.val < 0x80) →
            Only (fun e => ∃ message, e = .LeaseError message) (decode sign expired early lease now)) := by
  refine ⟨fun c lease now hissue hlong hapart hiss haud hnbf hexp => ?_,
    fun issued lease hunforged now => ⟨fun d h => ?_, ?_⟩⟩
  · have hseen : (c.seen : Claims (Doc F) (Doc F)) = c.body := by
      have heq {s : Str} (hs : s ∈ [c.jti, c.sub, c.ref, c.kind, c.host, c.scope]) : joined s = s :=
        (joined_eq_iff s).mpr (hapart s hs)
      have hconst : joined ISSUER = ISSUER ∧ joined AUDIENCE = AUDIENCE := by decide
      simp only [Claims.seen, Claims.body, Claims.map, hiss, haud, hconst.1, hconst.2, heq (s := c.jti) (by simp),
        heq (s := c.sub) (by simp), heq (s := c.ref) (by simp), heq (s := c.kind) (by simp),
        heq (s := c.host) (by simp), heq (s := c.scope) (by simp)]
    rw [← hseen]
    exact decode_issue expired early hissue hlong (by rw [hiss]; decide) (by rw [haud]; decide) hnbf hexp
  · exact verified_issued hunforged (decode_ok h)
  · intro hpayload
    unfold decode
    refine (verified_only hpayload).bind fun claims hclaims => ?_
    -- The claims are those of a lease that was issued, so the clock is compared with whole numbers.
    obtain ⟨c, -, _, _, _, -, -, -, rfl⟩ := verified_issued hunforged hclaims
    exact only_ok.bind fun _ _ => (only_ensure ⟨_, rfl⟩).bind fun _ _ => only_ok.bind fun _ _ =>
      (only_ensure ⟨_, rfl⟩).bind fun _ _ => only_ok

/-- A lease of 1000 s on one device, under this issuer's name. -/
def stamped (iss : Str) : Claims Str ℤ :=
  ⟨lit "k7", lit "token:3", 5, lit "core-1", 1, lit "ssh", lit "sw1", 22, lit "read", 100, 100, 1000, iss, AUDIENCE⟩

/-- The signature under a key of 32 bytes. -/
def tag (message : List UInt8) : List UInt8 :=
  (Sha256.hmac (List.range 32) (message.map UInt8.toNat)).map UInt8.ofNat

theorem stamped_lease (iss : Str) (h : (issue Whole tag (stamped iss)).any (·.length ≤ MAX_LEASE_CHARS) = true) :
    ∃ lease, issue Whole tag (stamped iss) = some lease ∧ lease.length ≤ MAX_LEASE_CHARS := by
  obtain ⟨lease, hlease, hlong⟩ := (Option.any_eq_true _ _).mp h
  exact ⟨lease, hlease, of_decide_eq_true hlong⟩

theorem stamped_lease_tokens : ∃ lease, issue Whole tag (stamped ISSUER) = some lease ∧
    Unforged Whole tag [stamped ISSUER] lease ∧
    decode tag (fun _ _ => false) (fun _ _ => false) lease 1030 =
      .ok ((stamped ISSUER).body : Claims (Doc Whole) (Doc Whole)) := by
  obtain ⟨lease, hlease, hlong⟩ := stamped_lease ISSUER (by decide +kernel)
  refine ⟨lease, hlease, unforged_issue List.mem_cons_self hlease, ?_⟩
  refine (lease_tokens tag _ _).1 (stamped ISSUER) lease 1030 hlease hlong ?_ rfl rfl ?_ ?_
  · show ∀ s ∈ _, _
    decide
  · norm_num [stamped, LEEWAY_S]
  · norm_num [stamped, LEEWAY_S]

/-- A lease of another issuer is refused; one whose payload is no ASCII text raises what no lease raises. -/
theorem foreign_issuer : (∃ lease, issue Whole tag (stamped (lit "other")) = some lease ∧
    decode (F := Whole) tag (fun _ _ => false) (fun _ _ => false) lease 500 =
      .error (.LeaseError "wrong issuer or audience")) ∧
    ∃ lease, decode (F := Whole) tag (fun _ _ => false) (fun _ _ => false) lease 500 =
      .error .UnicodeEncodeError := by
  refine ⟨?_, ?_⟩
  · obtain ⟨lease, hlease, hlong⟩ := stamped_lease (lit "other") (by decide +kernel)
    refine ⟨lease, hlease, ?_⟩
    rw [decode, verified_issue hlease hlong]
    rfl
  · have hheader : (encoded Whole HEADER).any (·.length ≤ 4000) = true := by decide +kernel
    obtain ⟨header, hheader, hlength⟩ := (Option.any_eq_true _ _).mp hheader
    obtain ⟨⟨doc, hdoc, his⟩, hchars⟩ := read_header hheader
    refine ⟨header ++ dot :: (lit "é" ++ dot :: []), ?_⟩
    refine decode_payload (fun hd => (hchars _ hd).2 rfl) (by decide) (by decide) ?_ hdoc his
      (unb64_b64 []) ?_
    · have hlength := of_decide_eq_true hlength
      rw [List.length_append]
      exact le_trans (Nat.add_le_add_right hlength 3) (by decide)
    · exact if_neg fun hall => absurd (List.all_eq_true.mp hall (chr 'é') (by simp [lit, chr])) (by decide)

end Signed

end NetCoreNoc.Noc.Token
