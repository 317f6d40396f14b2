import Mathlib
import NetCoreNoc.Checks
import NetCoreNoc.Json.Numbers

/-! The placeholders of the store's SQL (`store/sql.py`). -/
namespace NetCoreNoc.Store.Placeholders

open Json Checks

/-- `str.isalpha` and `str.isalnum` of a character. -/
class Letters where
  isalpha : CodePoint → Bool
  isalnum : CodePoint → Bool
  colon_isalnum : isalnum (chr ':') = false
  isalnum_of_isalpha : ∀ c, isalpha c = true → isalnum c = true

section
variable [Letters]

/-- A name starts with such a character. -/
def isStart (c : CodePoint) : Bool := Letters.isalpha c || c = chr '_'

def isPart (c : CodePoint) : Bool := Letters.isalnum c || c = chr '_'

def isQuote (c : CodePoint) : Bool := c = chr '\'' || c = chr '"'

/-- What a quote opens, up to its end, and the rest. A doubled quote is none. -/
def literal (q : CodePoint) : Str → Str × Str
  | [] => ([], [])
  | [c] => ([c], [])
  | c :: d :: s =>
    if c = q then
      if d = q then (c :: d :: (literal q s).1, (literal q s).2) else ([c], d :: s)
    else (c :: (literal q (d :: s)).1, (literal q (d :: s)).2)

/-- What the loop has written, and the names that it has met, each once. -/
structure Scanned where
  out : Str := []
  names : List Str := []
  positional : ℕ := 0

/-- `f"${n}"` -/
def placeholder (n : ℕ) : Str := chr '$' :: natText n

/-- `if name not in names: names.append(name)` -/
def meet (names : List Str) (name : Str) : List Str := if name ∈ names then names else names ++ [name]

/-- The loop of `translate`, for so many rounds; `prev` is the character before. -/
def scan : ℕ → Option CodePoint → Str → Scanned → Scanned
  | 0, _, _, a => a
  | _, _, [], a => a
  | n + 1, prev, c :: s, a =>
    if isQuote c then
      let (body, rest) := literal c s
      scan n (c :: body).getLast? rest { a with out := a.out ++ c :: body }
    else if c = chr '-' ∧ s.head? = some (chr '-') then
      let comment := (c :: s).takeWhile (· ≠ chr '\n')
      scan n comment.getLast? ((c :: s).dropWhile (· ≠ chr '\n')) { a with out := a.out ++ comment }
    else if c = chr '?' then
      scan n (some c) s
        { a with out := a.out ++ placeholder (a.positional + 1), positional := a.positional + 1 }
    else if c = chr ':' ∧ s.head?.any isStart ∧ prev ≠ some (chr ':') then
      let name := s.takeWhile isPart
      let names := meet a.names name
      scan n name.getLast? (s.dropWhile isPart)
        { a with out := a.out ++ placeholder (names.idxOf name + 1), names := names }
    else scan n (some c) s { a with out := a.out ++ [c] }

/-- `translate`, but for its two flags: the text, and the names in order. -/
def translate (sql : Str) : Except Str (Str × Option (List Str)) :=
  let a := scan sql.length none sql {}
  if a.positional ≠ 0 ∧ a.names ≠ [] then .error (lit "a statement mixes ? and :name parameters")
  else .ok (a.out, if a.names = [] then none else some a.names)

end

/-- `params[name]`: the `KeyError` has the name. -/
def value {V : Type} (params : Str → Option V) (name : Str) : Except Str V :=
  match params name with
  | some v => .ok v
  | none => .error name

/-- `arguments`, of a mapping. -/
def arguments {V : Type} (names : List Str) (params : Str → Option V) : Except Str (List V) :=
  each (value params) names

/-! Statements -/

/-- What a statement is made of. The body of a quoted text is as it reads, with its quotes single. -/
inductive Token where
  | plain (c : CodePoint)
  | quoted (double : Bool) (body : Str)
  | comment (body : Str)
  | cast
  | positional
  | named (name : Str)
  deriving DecidableEq

def quoteOf (double : Bool) : CodePoint := if double then chr '"' else chr '\''

def doubled (q : CodePoint) (body : Str) : Str := body.flatMap fun c => if c = q then [q, q] else [c]

def Token.text : Token → Str
  | .plain c => [c]
  | .quoted double body => quoteOf double :: (doubled (quoteOf double) body ++ [quoteOf double])
  | .comment body => chr '-' :: chr '-' :: body
  | .cast => [chr ':', chr ':']
  | .positional => [chr '?']
  | .named name => chr ':' :: name

def render (ts : List Token) : Str := ts.flatMap Token.text

section
variable [Letters]

/-- A token may stand between such characters: it is read as itself, and no further. -/
def Token.Allowed (prev next : Option CodePoint) : Token → Prop
  | .plain c => ¬ isQuote c ∧ c ≠ chr '?' ∧ (c = chr '-' → next ≠ some (chr '-')) ∧
      (c = chr ':' → ¬ next.any isStart)
  | .quoted double _ => next ≠ some (quoteOf double)
  | .comment body => chr '\n' ∉ body ∧ ¬ next.any (· ≠ chr '\n')
  | .cast => True
  | .positional => True
  | .named name => name.head?.any isStart ∧ name.all isPart ∧ prev ≠ some (chr ':') ∧ ¬ next.any isPart

instance (prev next : Option CodePoint) : ∀ t : Token, Decidable (t.Allowed prev next)
  | .plain _ | .quoted .. | .comment _ | .named _ => by
    unfold Token.Allowed
    infer_instance
  | .cast | .positional => .isTrue trivial

def WellFormed : Option CodePoint → List Token → Prop
  | _, [] => True
  | prev, t :: ts => t.Allowed prev (render ts).head? ∧ WellFormed t.text.getLast? ts

instance WellFormed.decidable : ∀ (prev : Option CodePoint) (ts : List Token), Decidable (WellFormed prev ts)
  | _, [] => .isTrue trivial
  | _, t :: ts =>
    have := WellFormed.decidable t.text.getLast? ts
    inferInstanceAs (Decidable (_ ∧ _))

end

/-- The names of a statement as they occur. -/
def named (ts : List Token) : List Str := ts.filterMap fun | .named name => some name | _ => none

def names (ts : List Token) : List Str := (named ts).foldl meet []

def positionals (ts : List Token) : ℕ := ts.count .positional

/-- The statement with its placeholders numbered: each `?` after the last, each name by its place. -/
def bound (names : List Str) : ℕ → List Token → Str
  | _, [] => []
  | k, .positional :: ts => placeholder (k + 1) ++ bound names (k + 1) ts
  | k, .named name :: ts => placeholder (names.idxOf name + 1) ++ bound names k ts
  | k, t :: ts => t.text ++ bound names k ts

/-! Names -/

theorem mem_meet {names : List Str} {name other : Str} : other ∈ meet names name ↔ other ∈ names ∨ other = name := by
  unfold meet
  split
  · next h => exact ⟨.inl, fun ho => ho.elim id fun he => he ▸ h⟩
  · rw [List.mem_append, List.mem_singleton]

theorem prefix_meets (names l : List Str) : names <+: l.foldl meet names := by
  induction l generalizing names with
  | nil => exact List.prefix_rfl
  | cons name l ih =>
    refine List.IsPrefix.trans ?_ (ih (meet names name))
    unfold meet
    split
    · exact List.prefix_rfl
    · exact List.prefix_append ..

theorem mem_meets {names l : List Str} {name : Str} : name ∈ l.foldl meet names ↔ name ∈ names ∨ name ∈ l := by
  induction l generalizing names with
  | nil => simp
  | cons other l ih => rw [List.foldl_cons, ih, mem_meet, List.mem_cons, or_assoc]

theorem nodup_meets {names l : List Str} (h : names.Nodup) : (l.foldl meet names).Nodup := by
  induction l generalizing names with
  | nil => exact h
  | cons name l ih =>
    refine ih ?_
    unfold meet
    split
    · exact h
    · next hnot =>
      refine List.nodup_append.mpr ⟨h, List.nodup_singleton name, ?_⟩
      rintro a ha b hb rfl
      exact hnot (List.mem_singleton.mp hb ▸ ha)

/-- A name keeps its place. -/
theorem idxOf_meets {names l : List Str} {name : Str} (h : name ∈ names) :
    (l.foldl meet names).idxOf name = names.idxOf name := by
  obtain ⟨t, ht⟩ := prefix_meets names l
  rw [← ht, List.idxOf_append_of_mem h]

/-- The values of a statement's names, each at the place of its name. -/
theorem arguments_ok {V : Type} {names : List Str} {params : Str → Option V}
    (h : ∀ name ∈ names, (params name).isSome) :
    ∃ args, arguments names params = .ok args ∧ ∀ name ∈ names, args[names.idxOf name]? = params name := by
  have hvalue {name : Str} {v : V} : value params name = .ok v ↔ params name = some v := by
    unfold value
    split <;> simp [*]
  obtain ⟨args, hargs⟩ : ∃ args, List.Forall₂ (fun name v => value params name = .ok v) names args := by
    induction names with
    | nil => exact ⟨[], .nil⟩
    | cons name names ih =>
      obtain ⟨args, hargs⟩ := ih fun other hother => h other (List.mem_cons_of_mem _ hother)
      obtain ⟨v, hv⟩ := Option.isSome_iff_exists.mp (h name List.mem_cons_self)
      exact ⟨v :: args, .cons (hvalue.mpr hv) hargs⟩
  refine ⟨args, each_ok.mpr hargs, fun name hname => ?_⟩
  obtain ⟨hlength, hget⟩ := List.forall₂_iff_get.mp hargs
  have hlt := List.idxOf_lt_length_of_mem hname
  have hplace := hget (names.idxOf name) hlt (hlength ▸ hlt)
  rw [hvalue, List.get_eq_getElem, List.getElem_idxOf hlt] at hplace
  rw [hplace]
  exact List.getElem?_eq_getElem _

/-! Reading what was rendered -/

-- every kind of token below is one turn of `scan`
attribute [local simp] scan

private theorem literal_doubled {q : CodePoint} (body : Str) {rest : Str} (h : rest.head? ≠ some q) :
    literal q (doubled q body ++ q :: rest) = (doubled q body ++ [q], rest) := by
  induction body with
  | nil =>
    cases rest with
    | nil => rfl
    | cons d s =>
      have hd : d ≠ q := fun he => h (congrArg some he)
      simp [doubled, literal, hd]
  | cons c body ih =>
    by_cases hc : c = q
    · have hcons : doubled q (c :: body) = q :: q :: doubled q body := by simp [doubled, hc]
      rw [hcons, List.cons_append, List.cons_append, literal, if_pos rfl, if_pos rfl, ih]
      rfl
    · have hcons : doubled q (c :: body) = c :: doubled q body := by simp [doubled, hc]
      obtain ⟨d, s, hds⟩ : ∃ d s, doubled q body ++ q :: rest = d :: s :=
        List.exists_cons_of_ne_nil (List.append_ne_nil_of_right_ne_nil _ (List.cons_ne_nil _ _))
      rw [hcons, List.cons_append, hds, literal, if_neg hc, ← hds, ih]
      rfl

/-- A text ends where its characters do. -/
private theorem span_eq {p : CodePoint → Bool} {l s : Str} (hl : ∀ c ∈ l, p c) (hs : ¬ s.head?.any p) :
    (l ++ s).takeWhile p = l ∧ (l ++ s).dropWhile p = s := by
  rw [List.takeWhile_append_of_pos hl, List.dropWhile_append_of_pos hl]
  cases s with
  | nil => exact ⟨List.append_nil l, rfl⟩
  | cons d s =>
    have hd : ¬ p d := hs
    rw [List.takeWhile_cons_of_neg hd, List.dropWhile_cons_of_neg hd, List.append_nil]
    exact ⟨rfl, rfl⟩

section
variable [Letters]

private theorem not_isStart_colon : isStart (chr ':') = false := by
  have halpha : Letters.isalpha (chr ':') = false := by
    by_contra h
    have := Letters.isalnum_of_isalpha _ (by simpa using h)
    rw [Letters.colon_isalnum] at this
    cases this
  rw [isStart, halpha]
  decide

variable {n : ℕ} {prev : Option CodePoint}

private theorem scan_plain {c : CodePoint} {s : Str} (a : Scanned)
    (h : (Token.plain c).Allowed prev s.head?) :
    scan (n + 1) prev (c :: s) a = scan n (some c) s { a with out := a.out ++ [c] } := by
  obtain ⟨hquote, hpositional, hdash, hcolon⟩ := h
  have hname : ¬ (c = chr ':' ∧ s.head?.any isStart ∧ prev ≠ some (chr ':')) := fun h => hcolon h.1 h.2.1
  rw [scan, if_neg hquote, if_neg fun hc => hdash hc.1 hc.2, if_neg hpositional, if_neg hname]

private theorem scan_cast {s : Str} (a : Scanned) :
    scan (n + 2) prev (chr ':' :: chr ':' :: s) a =
      scan n (some (chr ':')) s { a with out := a.out ++ [chr ':', chr ':'] } := by
  have hfirst : (Token.plain (chr ':')).Allowed prev (chr ':' :: s).head? := by
    refine ⟨by decide, by decide, fun h => absurd h (by decide), fun _ => ?_⟩
    simp [not_isStart_colon]
  rw [scan_plain a hfirst, scan, if_neg (by decide), if_neg fun h => absurd h.1 (by decide), if_neg (by decide),
    if_neg fun h => h.2.2 rfl, List.append_assoc]
  rfl

private theorem scan_quoted {double : Bool} {body s : Str} (a : Scanned)
    (h : (Token.quoted double body).Allowed prev s.head?) :
    scan (n + 1) prev ((Token.quoted double body).text ++ s) a =
      scan n (Token.quoted double body).text.getLast? s
        { a with out := a.out ++ (Token.quoted double body).text } := by
  have hquote : isQuote (quoteOf double) = true := by cases double <;> decide
  have htext : (Token.quoted double body).text ++ s =
      quoteOf double :: (doubled (quoteOf double) body ++ quoteOf double :: s) := by simp [Token.text]
  rw [htext, scan, if_pos hquote, literal_doubled body h]
  rfl

private theorem scan_comment {body s : Str} (a : Scanned)
    (h : (Token.comment body).Allowed prev s.head?) :
    scan (n + 1) prev ((Token.comment body).text ++ s) a =
      scan n (Token.comment body).text.getLast? s { a with out := a.out ++ (Token.comment body).text } := by
  obtain ⟨hline, hend⟩ := h
  obtain ⟨htake, hdrop⟩ : ((Token.comment body).text ++ s).takeWhile (· ≠ chr '\n') = (Token.comment body).text ∧
      ((Token.comment body).text ++ s).dropWhile (· ≠ chr '\n') = s := by
    refine span_eq (fun c hc => ?_) hend
    rcases List.mem_cons.mp hc with rfl | hc
    · decide
    · rcases List.mem_cons.mp hc with rfl | hc
      · decide
      · exact decide_eq_true fun he => hline (he ▸ hc)
  have htext : (Token.comment body).text ++ s = chr '-' :: chr '-' :: (body ++ s) := rfl
  rw [htext] at htake hdrop ⊢
  rw [scan, if_neg (by decide), if_pos ⟨rfl, rfl⟩]
  dsimp only
  rw [htake, hdrop]

private theorem scan_named {name s : Str} (a : Scanned)
    (h : (Token.named name).Allowed prev s.head?) :
    scan (n + 1) prev ((Token.named name).text ++ s) a = scan n (Token.named name).text.getLast? s
      { a with
        out := a.out ++ placeholder ((meet a.names name).idxOf name + 1)
        names := meet a.names name } := by
  obtain ⟨hstart, hpart, hprev, hend⟩ := h
  obtain ⟨c, r, rfl⟩ : ∃ c r, name = c :: r := by
    cases name with
    | nil => cases hstart
    | cons c r => exact ⟨c, r, rfl⟩
  obtain ⟨htake, hdrop⟩ := span_eq (List.all_eq_true.mp hpart) hend
  have htext : (Token.named (c :: r)).text ++ s = chr ':' :: (c :: r ++ s) := rfl
  have hname : chr ':' = chr ':' ∧ (c :: r ++ s).head?.any isStart ∧ prev ≠ some (chr ':') :=
    ⟨rfl, hstart, hprev⟩
  rw [htext, scan, if_neg (by decide), if_neg fun h => absurd h.1 (by decide), if_neg (by decide), if_pos hname]
  dsimp only
  rw [htake, hdrop]
  rfl

private theorem scan_positional {s : Str} (a : Scanned) :
    scan (n + 1) prev (chr '?' :: s) a = scan n (some (chr '?')) s
      { a with out := a.out ++ placeholder (a.positional + 1), positional := a.positional + 1 } := by
  rw [scan, if_neg (by decide), if_neg fun h => absurd h.1 (by decide), if_pos rfl]

/-- What a token adds to what the loop has written. -/
def Token.write (a : Scanned) : Token → Scanned
  | .positional => { a with out := a.out ++ placeholder (a.positional + 1), positional := a.positional + 1 }
  | .named name =>
    { a with out := a.out ++ placeholder ((meet a.names name).idxOf name + 1), names := meet a.names name }
  | t => { a with out := a.out ++ t.text }

private theorem scan_token {t : Token} {s : Str} (a : Scanned)
    (h : t.Allowed prev s.head?) :
    ∃ m, n ≤ m ∧ scan (n + t.text.length) prev (t.text ++ s) a = scan m t.text.getLast? s (t.write a) := by
  cases t with
  | plain c => exact ⟨n, le_rfl, scan_plain a h⟩
  | quoted double body => exact ⟨_, Nat.le_add_right n _, scan_quoted a h⟩
  | comment body => exact ⟨_, Nat.le_add_right n _, scan_comment a h⟩
  | cast => exact ⟨n, le_rfl, scan_cast a⟩
  | positional => exact ⟨n, le_rfl, scan_positional a⟩
  | named name => exact ⟨_, Nat.le_add_right n _, scan_named a h⟩

/-- The loop reads the tokens one by one. -/
theorem scan_render (ts : List Token) {prev : Option CodePoint} {n : ℕ} (a : Scanned) (h : WellFormed prev ts)
    (hn : (render ts).length ≤ n) : scan n prev (render ts) a =
      ⟨a.out ++ bound ((named ts).foldl meet a.names) a.positional ts, (named ts).foldl meet a.names,
        a.positional + positionals ts⟩ := by
  induction ts generalizing prev n a with
  | nil =>
    have hnil : scan n prev [] a = a := by cases n <;> rfl
    exact hnil.trans (by simp [bound, named, positionals])
  | cons t ts ih =>
    obtain ⟨hallowed, hrest⟩ := h
    have hrender : render (t :: ts) = t.text ++ render ts := rfl
    rw [hrender, List.length_append] at hn
    obtain ⟨m, hm, hscan⟩ := scan_token (n := n - t.text.length) a hallowed
    rw [hrender, show n = n - t.text.length + t.text.length by omega, hscan, ih _ hrest (by omega)]
    cases t with
    | positional => simp [Token.write, bound, named, positionals]; omega
    | named name =>
      have hmem : name ∈ meet a.names name := mem_meet.mpr (.inr rfl)
      have hidx : ((named ts).foldl meet (meet a.names name)).idxOf name = (meet a.names name).idxOf name :=
        idxOf_meets hmem
      have hnamed : named (.named name :: ts) = name :: named ts := rfl
      have hcount : positionals (.named name :: ts) = positionals ts := by simp [positionals]
      rw [hnamed, hcount, List.foldl_cons, Token.write, bound, hidx, List.append_assoc]
    | plain | quoted | comment | cast => simp [Token.write, bound, named, positionals]

/-- What is sent to the database for a statement, and the values for its names. -/
structure Translated (ts : List Token) : Prop where
  text : positionals ts = 0 ∨ named ts = [] →
    translate (render ts) = .ok (bound (names ts) 0 ts, if named ts = [] then none else some (names ts))
  mixed : positionals ts ≠ 0 → named ts ≠ [] →
    translate (render ts) = .error (lit "a statement mixes ? and :name parameters")
  once : (names ts).Nodup
  values : ∀ {V : Type} (params : Str → Option V), (∀ name ∈ named ts, (params name).isSome) →
    ∃ args, arguments (names ts) params = .ok args ∧ ∀ name ∈ named ts, args[(names ts).idxOf name]? = params name

theorem translate_render (ts : List Token) (h : WellFormed none ts) : Translated ts := by
  have hmem {name : Str} : name ∈ names ts ↔ name ∈ named ts := by simp [names, mem_meets]
  have hnil : names ts = [] ↔ named ts = [] := by
    simp only [List.eq_nil_iff_forall_not_mem, hmem]
  have htranslate : translate (render ts) = if positionals ts ≠ 0 ∧ named ts ≠ []
      then .error (lit "a statement mixes ? and :name parameters")
      else .ok (bound (names ts) 0 ts, if named ts = [] then none else some (names ts)) := by
    have hscan := scan_render ts {} h le_rfl
    rw [List.nil_append, Nat.zero_add, ← names] at hscan
    simp only [translate, hscan, hnil, ne_eq]
  constructor
  · intro hone
    rw [htranslate, if_neg fun hmixed => hone.elim hmixed.1 hmixed.2]
  · exact fun hpositional hnamed => by rw [htranslate, if_pos ⟨hpositional, hnamed⟩]
  · exact nodup_meets .nil
  · intro V params hparams
    simp only [← hmem] at hparams ⊢
    exact arguments_ok hparams

end

@[reducible] def asciiLetters : Letters where
  isalpha c := (65 ≤ c.val ∧ c.val ≤ 90) ∨ (97 ≤ c.val ∧ c.val ≤ 122)
  isalnum c := (48 ≤ c.val ∧ c.val ≤ 57) ∨ (65 ≤ c.val ∧ c.val ≤ 90) ∨ (97 ≤ c.val ∧ c.val ≤ 122)
  colon_isalnum := by decide
  isalnum_of_isalpha c h := by
    simp only [decide_eq_true_eq] at h ⊢
    exact .inr h

/-- `a::b=:c+':d'''+":e"-:c--:f` -/
def selected : List Token :=
  [.plain (chr 'a'), .cast, .plain (chr 'b'), .plain (chr '='), .named (lit "c"), .plain (chr '+'),
    .quoted false (lit ":d'"), .plain (chr '+'), .quoted true (lit ":e"), .plain (chr '-'), .named (lit "c"),
    .comment (lit ":f")]

theorem selected_translated : @Translated asciiLetters selected ∧
    bound (names selected) 0 selected = lit "a::b=$1+':d'''+\":e\"-$1--:f" :=
  ⟨@translate_render asciiLetters selected (by decide +kernel), by decide +kernel⟩

/-- The comments and quotes that the scanner does not know. -/
theorem block_rewritten : @translate asciiLetters (lit "/* :x */ SELECT $$:y$$") =
    .ok (lit "/* $1 */ SELECT $$$2$$", some [lit "x", lit "y"]) := by
  decide +kernel

end NetCoreNoc.Store.Placeholders
