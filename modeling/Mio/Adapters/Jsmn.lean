import Mathlib.Logic.Function.Iterate
import Mio.Lib.Program
import Mio.Lib.Tokens

/-! The tokenizer of the Hue and the Enfuse adapter: `jsmn.c` as they compile it, with neither
`JSMN_STRICT` nor `JSMN_PARENT_LINKS`, and `_json_tokenize`, which doubles the array until it holds all
tokens. A `Char` is a byte of the text, which ends in front of its NUL. Places and sizes
are natural numbers here and `int` in the source: the text is taken to have less than 2^31 bytes. -/
namespace Mio.Adapters.Jsmn

open Tokens (Kind)

/-- `jsmnerr_t` without success. -/
inductive Err where
  | nomem
  | inval
  | part
deriving DecidableEq

/-- `jsmntok_t`. Its `end` is -1 while an array or an object is open; `start` is set with the type. -/
structure Tok where
  kind : Kind
  start : ℕ
  stop : Option ℕ
  size : ℕ
deriving DecidableEq

/-- `jsmn_parser` with the tokens up to `toknext`. -/
structure Parser where
  pos : ℕ
  toksuper : Option ℕ
  tokens : List Tok
deriving DecidableEq

/-- `jsmn_init`. -/
def Parser.init : Parser := ⟨0, none, []⟩

def delimiter (c : Char) : Bool := [':', '\t', '\r', '\n', ' ', ',', ']', '\x7d'].contains c

/-- What may follow a backslash; the digits behind a `u` are not looked at. -/
def escapable (c : Char) : Bool := ['"', '/', '\\', 'b', 'f', 'r', 'n', 't', 'u'].contains c

def skipped (c : Char) : Bool := ['\t', '\r', '\n', ':', ',', ' '].contains c

/-- The place behind a primitive, from `pos` on. -/
def primitiveEnd : ℕ → List Char → Option ℕ
  | pos, [] => some pos
  | pos, c :: rest =>
      if delimiter c then some pos
      else if c.toNat < 32 ∨ 127 ≤ c.toNat then none
      else primitiveEnd (pos + 1) rest

/-- The place of the quote that ends a string, from `pos` on. -/
def stringEnd : ℕ → List Char → Except Err ℕ
  | _, [] => .error .part
  | pos, c :: rest =>
      if c = '"' then .ok pos
      else if c = '\\' then
        match rest with
        | [] => .error .inval
        | d :: rest => if escapable d then stringEnd (pos + 2) rest else .error .inval
      else stringEnd (pos + 1) rest

/-- `tokens[toksuper].size++`, if there is one. -/
def bump (toksuper : Option ℕ) (tokens : List Tok) : List Tok :=
  match toksuper with
  | none => tokens
  | some i => tokens.modify i fun t => { t with size := t.size + 1 }

/-- The last token that is still open, with its index. -/
def lastOpen : List Tok → Option (ℕ × Tok)
  | [] => none
  | t :: tokens =>
      match lastOpen tokens with
      | some found => some (found.1 + 1, found.2)
      | none => if t.stop = none then some (0, t) else none

namespace Parser

variable (numTokens : ℕ) (js : List Char)

/-- `jsmn_alloc_token` and the fields of the new token. -/
def alloc (t : Tok) (p : Parser) : Except Err Parser :=
  if numTokens ≤ p.tokens.length then .error .nomem else .ok { p with tokens := p.tokens ++ [t] }

def parsePrimitive (p : Parser) : Except Err Parser :=
  match primitiveEnd p.pos (js.drop p.pos) with
  | none => .error .inval
  | some stop => do
      let p ← p.alloc numTokens ⟨.primitive, p.pos, some stop, 0⟩
      return { p with pos := stop - 1 }

def parseString (p : Parser) : Except Err Parser := do
  let stop ← stringEnd (p.pos + 1) (js.drop (p.pos + 1))
  let p ← p.alloc numTokens ⟨.string, p.pos + 1, some stop, 0⟩
  return { p with pos := stop }

def open_ (kind : Kind) (p : Parser) : Except Err Parser := do
  let opened ← p.alloc numTokens ⟨kind, p.pos, none, 0⟩
  return { opened with tokens := bump p.toksuper opened.tokens, toksuper := some p.tokens.length }

def close (kind : Kind) (p : Parser) : Except Err Parser :=
  match lastOpen p.tokens with
  | none => .error .inval
  | some found =>
      if found.2.kind ≠ kind then .error .inval
      else .ok { p with
        tokens := p.tokens.set found.1 { found.2 with stop := some (p.pos + 1) }
        toksuper := (lastOpen (p.tokens.take found.1)).map Prod.fst }

def addToSuper (p : Parser) : Parser := { p with tokens := bump p.toksuper p.tokens }

/-- The body of the loop. An error leaves the parser as it was. -/
def turn (c : Char) (p : Parser) : Except Err Parser :=
  if c = '\x7b' then p.open_ numTokens .object
  else if c = '[' then p.open_ numTokens .array
  else if c = '\x7d' then p.close .object
  else if c = ']' then p.close .array
  else if c = '"' then (p.parseString numTokens js).map addToSuper
  else if skipped c then .ok p
  else (p.parsePrimitive numTokens js).map addToSuper

def parse : ℕ → Parser → Outcome Unit (Option Err × Parser)
  | 0, _ => .timeout
  | fuel + 1, p =>
      match js[p.pos]? with
      | none => .ret (if (lastOpen p.tokens).isSome then some .part else none, p)
      | some c =>
          match p.turn numTokens js c with
          | .error e => .ret (some e, p)
          | .ok p => parse fuel { p with pos := p.pos + 1 }

end Parser

/-- Once more with twice the tokens, from where the parser stopped. -/
def tokenizeLoop (js : List Char) : ℕ → ℕ → Parser → Outcome Unit (Option (List Tok))
  | 0, _, _ => .timeout
  | fuel + 1, nTokens, p => do
      let result ← p.parse nTokens js fuel
      match result.1 with
      | some .nomem => tokenizeLoop js fuel (nTokens * 2) result.2
      | some _ => return none
      | none => return some result.2.tokens

/-- `_json_tokenize`; no allocation fails. -/
def jsonTokenize (js : List Char) (fuel : ℕ) : Outcome Unit (Option (List Tok)) :=
  tokenizeLoop js fuel 512 .init

/-- What opens and what closes a token with others inside. -/
def brackets : Kind → Option (Char × Char)
  | .object => some ('\x7b', '\x7d')
  | .array => some ('[', ']')
  | .primitive => none
  | .string => none

/-- Begins a primitive: none of the other cases of the loop. -/
def plain (c : Char) : Prop :=
  c ≠ '\x7b' ∧ c ≠ '[' ∧ c ≠ '\x7d' ∧ c ≠ ']' ∧ c ≠ '"' ∧ skipped c = false

/-- From one place to another stand so many values, with these tokens. Colons and commas may stand
anywhere. -/
inductive Reads (js : List Char) : ℕ → ℕ → ℕ → List Tok → Prop
  | nil {i : ℕ} : Reads js i i 0 []
  | skip {i j n : ℕ} {ts : List Tok} {c : Char} (here : js[i]? = some c) (is : skipped c = true)
      (rest : Reads js (i + 1) j n ts) : Reads js i j n ts
  | string {i j n stop : ℕ} {ts : List Tok} (here : js[i]? = some '"')
      (ends : stringEnd (i + 1) (js.drop (i + 1)) = .ok stop) (rest : Reads js (stop + 1) j n ts) :
      Reads js i j (n + 1) (⟨.string, i + 1, some stop, 0⟩ :: ts)
  | primitive {i j n stop : ℕ} {ts : List Tok} {c : Char} (here : js[i]? = some c) (is : plain c)
      (ends : primitiveEnd i (js.drop i) = some stop) (rest : Reads js stop j n ts) :
      Reads js i j (n + 1) (⟨.primitive, i, some stop, 0⟩ :: ts)
  | node {i j k m n : ℕ} {kind : Kind} {a b : Char} {inner ts : List Tok} (pair : brackets kind = some (a, b))
      (here : js[i]? = some a) (inside : Reads js (i + 1) k m inner) (there : js[k]? = some b)
      (rest : Reads js (k + 1) j n ts) : Reads js i j (n + 1) (⟨kind, i, some (k + 1), m⟩ :: (inner ++ ts))

section
variable {js : List Char} {t : Tok} {ts us : List Tok} {i j k m n : ℕ}

@[simp] theorem bump_length (toksuper : Option ℕ) (ts : List Tok) : (bump toksuper ts).length = ts.length := by
  cases toksuper with
  | none => rfl
  | some i => exact List.length_modify ..

theorem modify_append {f : Tok → Tok} (inside : i < ts.length) : (ts ++ us).modify i f = ts.modify i f ++ us := by
  induction ts generalizing i with
  | nil => cases inside
  | cons t ts ih =>
      cases i with
      | zero => rfl
      | succ i => rw [List.cons_append, List.modify_succ_cons, List.modify_succ_cons, ih (Nat.lt_of_succ_lt_succ inside),
          List.cons_append]

theorem bump_append {toksuper : Option ℕ} (inside : ∀ i, toksuper = some i → i < ts.length) :
    bump toksuper (ts ++ us) = bump toksuper ts ++ us := by
  cases toksuper with
  | none => rfl
  | some i => exact modify_append (inside i rfl)

theorem bump_at (ts us : List Tok) (t : Tok) :
    bump (some ts.length) (ts ++ t :: us) = ts ++ { t with size := t.size + 1 } :: us := by
  induction ts with
  | nil => rfl
  | cons u ts ih =>
      rw [bump] at ih
      rw [bump, List.length_cons, List.cons_append, List.modify_succ_cons, ih]
      rfl

theorem bumps_at (n : ℕ) (ts us : List Tok) (t : Tok) :
    (bump (some ts.length))^[n] (ts ++ t :: us) = ts ++ { t with size := t.size + n } :: us := by
  induction n with
  | zero => rfl
  | succ n ih => rw [Function.iterate_succ_apply', ih, bump_at]; rfl

theorem bump_none (n : ℕ) (ts : List Tok) : (bump none)^[n] ts = ts := Function.iterate_fixed rfl n

theorem bumps_append {toksuper : Option ℕ} (inside : ∀ i, toksuper = some i → i < ts.length) (n : ℕ) :
    (bump toksuper)^[n] (ts ++ us) = (bump toksuper)^[n] ts ++ us := by
  induction n generalizing ts with
  | zero => rfl
  | succ n ih =>
      rw [Function.iterate_succ_apply, Function.iterate_succ_apply, bump_append inside]
      exact ih fun i eq => by rw [bump_length]; exact inside i eq

theorem lastOpen_append (ts us : List Tok) : lastOpen (ts ++ us) =
    ((lastOpen us).map fun found => (ts.length + found.1, found.2)).or (lastOpen ts) := by
  induction ts with
  | nil =>
      rw [List.nil_append, lastOpen]
      cases lastOpen us <;> simp
  | cons t ts ih =>
      rw [List.cons_append, lastOpen, ih]
      cases found : lastOpen us with
      | none => simp [lastOpen]
      | some found => simp [Nat.add_right_comm]

theorem lastOpen_closed (closed : ∀ t ∈ ts, t.stop ≠ none) : lastOpen ts = none := by
  induction ts with
  | nil => rfl
  | cons t ts ih =>
      rw [lastOpen, ih fun u mem => closed u (List.mem_cons_of_mem t mem)]
      exact if_neg (closed t List.mem_cons_self)

/-- The tokens behind an open one are closed. -/
theorem lastOpen_at (isOpen : t.stop = none) (closed : ∀ u ∈ us, u.stop ≠ none) :
    lastOpen (ts ++ t :: us) = some (ts.length, t) := by
  rw [lastOpen_append, lastOpen, lastOpen_closed closed]
  dsimp only
  rw [if_pos isOpen]
  rfl

theorem lastOpen_modify {f : Tok → Tok} (same : ∀ t, (f t).stop = t.stop) (ts : List Tok) (i : ℕ) :
    (lastOpen (ts.modify i f)).map Prod.fst = (lastOpen ts).map Prod.fst := by
  induction ts generalizing i with
  | nil => cases i <;> rfl
  | cons t ts ih =>
      cases i with
      | zero =>
          rw [List.modify_zero_cons, lastOpen, lastOpen, same]
          cases lastOpen ts with
          | none =>
              dsimp only
              split <;> rfl
          | some found => rfl
      | succ i =>
          have rest := ih i
          rw [List.modify_succ_cons, lastOpen, lastOpen]
          cases here : lastOpen ts with
          | none =>
              rw [here] at rest
              rw [Option.map_eq_none_iff.mp rest]
          | some found =>
              rw [here] at rest
              obtain ⟨found', eq, index⟩ := Option.map_eq_some_iff.mp rest
              rw [eq]
              exact congrArg (fun i => some (i + 1)) index

theorem lastOpen_bump (toksuper : Option ℕ) (ts : List Tok) :
    (lastOpen (bump toksuper ts)).map Prod.fst = (lastOpen ts).map Prod.fst := by
  cases toksuper with
  | none => rfl
  | some i => exact lastOpen_modify (f := fun t => { t with size := t.size + 1 }) (fun _ => rfl) ts i

end

section
variable {numTokens : ℕ} {js : List Char} {p : Parser} {kind : Kind} {a b c : Char}

theorem turn_open (pair : brackets kind = some (a, b)) : p.turn numTokens js a = p.open_ numTokens kind := by
  cases kind <;> cases pair <;> rfl

theorem turn_close (pair : brackets kind = some (a, b)) : p.turn numTokens js b = p.close kind := by
  cases kind <;> cases pair <;> rfl

theorem turn_string : p.turn numTokens js '"' = (p.parseString numTokens js).map Parser.addToSuper := rfl

theorem ne_of_skipped {d : Char} (is : skipped c = true) (other : skipped d = false) : c ≠ d := by
  rintro rfl
  rw [other] at is
  cases is

theorem turn_skip (is : skipped c = true) : p.turn numTokens js c = .ok p := by
  rw [Parser.turn, if_neg (ne_of_skipped is rfl), if_neg (ne_of_skipped is rfl), if_neg (ne_of_skipped is rfl),
    if_neg (ne_of_skipped is rfl), if_neg (ne_of_skipped is rfl), if_pos is]

theorem turn_primitive (is : plain c) :
    p.turn numTokens js c = (p.parsePrimitive numTokens js).map Parser.addToSuper := by
  obtain ⟨h1, h2, h3, h4, h5, h6⟩ := is
  rw [Parser.turn, if_neg h1, if_neg h2, if_neg h3, if_neg h4, if_neg h5, if_neg (by rw [h6]; exact Bool.false_ne_true)]

theorem turn_cases (c : Char) :
    (∃ kind b, brackets kind = some (c, b)) ∨ (∃ kind a, brackets kind = some (a, c)) ∨ c = '"' ∨
      skipped c = true ∨ plain c := by
  by_cases h1 : c = '\x7b'
  · exact .inl ⟨.object, _, by rw [h1]; rfl⟩
  by_cases h2 : c = '['
  · exact .inl ⟨.array, _, by rw [h2]; rfl⟩
  by_cases h3 : c = '\x7d'
  · exact .inr (.inl ⟨.object, _, by rw [h3]; rfl⟩)
  by_cases h4 : c = ']'
  · exact .inr (.inl ⟨.array, _, by rw [h4]; rfl⟩)
  by_cases h5 : c = '"'
  · exact .inr (.inr (.inl h5))
  by_cases h6 : skipped c = true
  · exact .inr (.inr (.inr (.inl h6)))
  · exact .inr (.inr (.inr (.inr ⟨h1, h2, h3, h4, h5, by simpa using h6⟩)))

end
section
variable {js : List Char} {i j k m n : ℕ} {ts us : List Tok} {c : Char}

theorem drop_of_getElem? (here : js[i]? = some c) : js.drop i = c :: js.drop (i + 1) := by
  obtain ⟨lt, eq⟩ := List.getElem?_eq_some_iff.mp here
  rw [← eq, List.drop_eq_getElem_cons]

theorem lt_of_getElem? (here : js[i]? = some c) : i < js.length := (List.getElem?_eq_some_iff.mp here).1

theorem primitiveEnd_bounds {l : List Char} {pos stop : ℕ} (ends : primitiveEnd pos l = some stop) :
    pos ≤ stop ∧ stop ≤ pos + l.length := by
  induction l generalizing pos with
  | nil =>
      cases ends
      exact ⟨Nat.le_refl _, Nat.le_refl _⟩
  | cons c l ih =>
      rw [primitiveEnd] at ends
      split at ends
      · cases ends
        exact ⟨Nat.le_refl _, Nat.le_add_right _ _⟩
      · split at ends
        · cases ends
        · have bounds := ih ends
          rw [List.length_cons]
          omega

theorem stringEnd_bounds {l : List Char} {pos stop : ℕ} (ends : stringEnd pos l = .ok stop) :
    pos ≤ stop ∧ stop < pos + l.length := by
  fun_induction stringEnd pos l with
  | case1 => cases ends
  | case2 pos rest =>
      cases ends
      exact ⟨Nat.le_refl _, by rw [List.length_cons]; omega⟩
  | case3 => cases ends
  | case4 pos d rest escape known ih =>
      have bounds := ih ends
      rw [List.length_cons, List.length_cons]
      omega
  | case5 => cases ends
  | case6 pos c rest quote backslash ih =>
      have bounds := ih ends
      rw [List.length_cons]
      omega

theorem primitive_some (here : js[i]? = some c) (is : plain c) {stop : ℕ}
    (ends : primitiveEnd i (js.drop i) = some stop) : i < stop ∧ stop ≤ js.length := by
  have lt := lt_of_getElem? here
  have bounds := primitiveEnd_bounds ends
  have go : delimiter c = false := by
    obtain ⟨-, -, brace, bracket, -, skip⟩ := is
    simp only [delimiter, skipped, List.contains_eq_mem, List.mem_cons, List.not_mem_nil, or_false,
      decide_eq_false_iff_not, not_or] at skip ⊢
    tauto
  rw [drop_of_getElem? here, primitiveEnd, if_neg (by rw [go]; exact Bool.false_ne_true)] at ends
  rw [List.length_drop] at bounds
  split at ends
  · cases ends
  · have later := primitiveEnd_bounds ends
    omega

theorem string_some (here : js[i]? = some '"') {stop : ℕ}
    (ends : stringEnd (i + 1) (js.drop (i + 1)) = .ok stop) : i < stop ∧ stop < js.length := by
  have lt := lt_of_getElem? here
  have bounds := stringEnd_bounds ends
  rw [List.length_drop] at bounds
  omega

namespace Reads

theorem append (first : Reads js i j m ts) (second : Reads js j k n us) : Reads js i k (m + n) (ts ++ us) := by
  induction first with
  | nil => rwa [Nat.zero_add]
  | skip here is rest ih => exact .skip here is (ih second)
  | string here ends rest ih =>
      rw [Nat.succ_add]
      exact .string here ends (ih second)
  | primitive here is ends rest ih =>
      rw [Nat.succ_add]
      exact .primitive here is ends (ih second)
  | node pair here inside there rest _ ih =>
      rw [Nat.succ_add, List.cons_append, List.append_assoc]
      exact .node pair here inside there (ih second)

theorem closed (h : Reads js i j n ts) : ∀ t ∈ ts, t.stop ≠ none := by
  induction h with
  | nil => exact fun t mem => (List.not_mem_nil mem).elim
  | skip here is rest ih => exact ih
  | string here ends rest ih => exact List.forall_mem_cons.mpr ⟨Option.some_ne_none _, ih⟩
  | primitive here is ends rest ih => exact List.forall_mem_cons.mpr ⟨Option.some_ne_none _, ih⟩
  | node pair here inside there rest ih ih' =>
      refine List.forall_mem_cons.mpr ⟨Option.some_ne_none _, fun t mem => ?_⟩
      exact (List.mem_append.mp mem).elim (ih t) (ih' t)

theorem room (h : Reads js i j n ts) : i + ts.length ≤ j := by
  induction h with
  | nil => exact Nat.le_refl _
  | skip here is rest ih => omega
  | string here ends rest ih =>
      have some_char := string_some here ends
      rw [List.length_cons]
      omega
  | primitive here is ends rest ih =>
      have some_char := primitive_some here is ends
      rw [List.length_cons]
      omega
  | node pair here inside there rest ih ih' =>
      rw [List.length_cons, List.length_append]
      omega

theorem inside_text (h : Reads js i j n ts) (inside : i ≤ js.length) : j ≤ js.length := by
  induction h with
  | nil => exact inside
  | skip here is rest ih => exact ih (lt_of_getElem? here)
  | string here ends rest ih => exact ih (string_some here ends).2
  | primitive here is ends rest ih => exact ih (primitive_some here is ends).2
  | node pair here inner there rest ih ih' => exact ih' (lt_of_getElem? there)

end Reads

/-- The tokens in front of a place of the text: complete values, and behind them the open tokens, one inside
the other, each with the complete values that follow it. -/
inductive Spine (js : List Char) : ℕ → List Tok → Option ℕ → Prop
  | base {i n : ℕ} {ts : List Tok} (values : Reads js 0 i n ts) : Spine js i ts none
  | frame {i k m : ℕ} {ts inner : List Tok} {super : Option ℕ} {kind : Kind} {a b : Char}
      (outer : Spine js i ts super) (pair : brackets kind = some (a, b)) (here : js[i]? = some a)
      (inside : Reads js (i + 1) k m inner) :
      Spine js k (bump super ts ++ ⟨kind, i, none, m⟩ :: inner) (some ts.length)

namespace Spine

variable {super : Option ℕ}

theorem last (h : Spine js i ts super) : (lastOpen ts).map Prod.fst = super := by
  cases h with
  | base values => rw [lastOpen_closed values.closed, Option.map_none]
  | frame outer pair here inside =>
      rw [lastOpen_at rfl inside.closed, Option.map_some, bump_length]

theorem room (h : Spine js i ts super) : ts.length ≤ i := by
  induction h with
  | base values =>
      have room := values.room
      omega
  | frame outer pair here inside ih =>
      have room := inside.room
      rw [List.length_append, bump_length, List.length_cons]
      omega

theorem inside_text (h : Spine js i ts super) : i ≤ js.length := by
  cases h with
  | base values => exact values.inside_text (Nat.zero_le _)
  | frame outer pair here inside => exact inside.inside_text (lt_of_getElem? here)

theorem skip (h : Spine js i ts super) (none : Reads js i j 0 []) : Spine js j ts super := by
  cases h with
  | base values =>
      have all := values.append none
      rw [List.append_nil] at all
      exact .base all
  | frame outer pair here inside =>
      have all := inside.append none
      rw [List.append_nil] at all
      exact .frame outer pair here all

theorem push (h : Spine js i ts super) (more : Reads js i j n us) :
    Spine js j ((bump super)^[n] ts ++ us) super := by
  cases h with
  | base values =>
      rw [bump_none]
      exact .base (values.append more)
  | @frame i₀ k m ts₀ inner super₀ kind a b outer pair here inside =>
      have all := Spine.frame outer pair here (inside.append more)
      have bumped := bumps_at n (bump super₀ ts₀) inner ⟨kind, i₀, none, m⟩
      rw [bump_length] at bumped
      rwa [bumped, List.append_assoc]

theorem value (h : Spine js i ts super) (one : Reads js i j 1 us) : Spine js j (bump super ts ++ us) super :=
  h.push one

theorem opened (h : Spine js i ts super) {kind : Kind} {a b : Char} (pair : brackets kind = some (a, b))
    (here : js[i]? = some a) : Spine js (i + 1) (bump super ts ++ [⟨kind, i, none, 0⟩]) (some ts.length) :=
  .frame h pair here .nil

theorem super_lt (h : Spine js i ts super) : ∀ k, super = some k → k < ts.length := by
  intro k eq
  cases h with
  | base values => cases eq
  | frame outer pair here inside =>
      cases eq
      rw [List.length_append, bump_length, List.length_cons]
      omega

end Spine
end

section
variable {numTokens : ℕ} {js : List Char} {p q : Parser} {kind : Kind} {c : Char} {stop : ℕ} {e : Err}

theorem parsePrimitive_of (ends : primitiveEnd p.pos (js.drop p.pos) = some stop) :
    p.parsePrimitive numTokens js = if numTokens ≤ p.tokens.length then .error .nomem
      else .ok ⟨stop - 1, p.toksuper, p.tokens ++ [⟨.primitive, p.pos, some stop, 0⟩]⟩ := by
  rw [Parser.parsePrimitive, ends]
  dsimp only
  rw [Parser.alloc]
  split <;> rfl

theorem parsePrimitive_inval (bad : primitiveEnd p.pos (js.drop p.pos) = none) :
    p.parsePrimitive numTokens js = .error .inval := by
  rw [Parser.parsePrimitive, bad]

theorem parseString_of (ends : stringEnd (p.pos + 1) (js.drop (p.pos + 1)) = .ok stop) :
    p.parseString numTokens js = if numTokens ≤ p.tokens.length then .error .nomem
      else .ok ⟨stop, p.toksuper, p.tokens ++ [⟨.string, p.pos + 1, some stop, 0⟩]⟩ := by
  rw [Parser.parseString, ends]
  change (p.alloc numTokens _ >>= _) = _
  rw [Parser.alloc]
  split <;> rfl

theorem parseString_error (bad : stringEnd (p.pos + 1) (js.drop (p.pos + 1)) = .error e) :
    p.parseString numTokens js = .error e := by
  rw [Parser.parseString, bad]
  rfl

theorem open_eq : p.open_ numTokens kind = if numTokens ≤ p.tokens.length then .error .nomem
    else .ok ⟨p.pos, some p.tokens.length, bump p.toksuper (p.tokens ++ [⟨kind, p.pos, none, 0⟩])⟩ := by
  rw [Parser.open_, Parser.alloc]
  split <;> rfl

theorem set_at (ts us : List Tok) (t u : Tok) : (ts ++ t :: us).set ts.length u = ts ++ u :: us := by
  induction ts with
  | nil => rfl
  | cons v ts ih => rw [List.cons_append, List.length_cons, List.set_cons_succ, ih, List.cons_append]

/-- The last open token is closed by its own bracket. -/
theorem close_of {ts inner : List Tok} {t : Tok} {super : Option ℕ} (tokens : p.tokens = ts ++ t :: inner)
    (isOpen : t.stop = none) (closed : ∀ u ∈ inner, u.stop ≠ none) (outer : (lastOpen ts).map Prod.fst = super) :
    p.close kind = if t.kind ≠ kind then .error .inval
      else .ok ⟨p.pos, super, ts ++ { t with stop := some (p.pos + 1) } :: inner⟩ := by
  rw [Parser.close, tokens, lastOpen_at isOpen closed]
  dsimp only
  rw [set_at, List.take_left, outer]

/-- A turn of the loop takes what stands at its place into the tokens. -/
theorem Spine.turn (h : Spine js p.pos p.tokens p.toksuper) (here : js[p.pos]? = some c)
    (ok : p.turn numTokens js c = .ok q) : p.pos ≤ q.pos ∧ Spine js (q.pos + 1) q.tokens q.toksuper := by
  rcases turn_cases c with ⟨kind, b, pair⟩ | ⟨kind, a, pair⟩ | rfl | is | is
  · rw [turn_open pair, open_eq] at ok
    split at ok
    · cases ok
    · cases ok
      refine ⟨Nat.le_refl _, ?_⟩
      rw [bump_append h.super_lt]
      exact h.opened pair here
  · rw [turn_close pair] at ok
    obtain ⟨pos, toksuper, tokens⟩ := p
    dsimp only at h here
    cases h with
    | base values =>
        rw [Parser.close, lastOpen_closed values.closed] at ok
        cases ok
    | @frame i k m ts inner super kind' a' b' outer pair' opening inside =>
        have last : (lastOpen (bump super ts)).map Prod.fst = super := (lastOpen_bump super ts).trans outer.last
        rw [close_of rfl rfl inside.closed last] at ok
        split at ok
        · cases ok
        · next same =>
            cases ok
            obtain rfl : kind' = kind := not_not.mp same
            rw [pair'] at pair
            cases pair
            refine ⟨Nat.le_refl _, ?_⟩
            have one := Reads.node pair' opening inside here .nil
            rw [List.append_nil] at one
            exact outer.value one
  · rw [turn_string] at ok
    cases ends : stringEnd (p.pos + 1) (js.drop (p.pos + 1)) with
    | error e =>
        rw [parseString_error ends] at ok
        cases ok
    | ok stop =>
        rw [parseString_of ends] at ok
        split at ok
        · cases ok
        · cases ok
          refine ⟨(string_some here ends).1.le, ?_⟩
          have one := h.value (.string here ends .nil)
          rwa [← bump_append h.super_lt] at one
  · rw [turn_skip is] at ok
    cases ok
    exact ⟨Nat.le_refl _, h.skip (.skip here is .nil)⟩
  · rw [turn_primitive is] at ok
    cases ends : primitiveEnd p.pos (js.drop p.pos) with
    | none =>
        rw [parsePrimitive_inval ends] at ok
        cases ok
    | some stop =>
        have bounds := primitive_some here is ends
        rw [parsePrimitive_of ends] at ok
        split at ok
        · cases ok
        · cases ok
          refine ⟨Nat.le_sub_one_of_lt bounds.1, ?_⟩
          have one := h.value (.primitive here is ends .nil)
          rw [← bump_append h.super_lt] at one
          have back : stop - 1 + 1 = stop := by omega
          change Spine js (stop - 1 + 1) _ _
          rwa [back]

/-- Too few tokens make a turn stop that needs one more, and change no other. -/
theorem turn_limit (most : ℕ) (room : p.tokens.length < most) :
    numTokens ≤ p.tokens.length ∧ p.turn numTokens js c = .error .nomem ∨
      p.turn numTokens js c = p.turn most js c := by
  have enough : ¬ most ≤ p.tokens.length := Nat.not_le.mpr room
  by_cases full : numTokens ≤ p.tokens.length
  · rcases turn_cases c with ⟨kind, b, pair⟩ | ⟨kind, a, pair⟩ | rfl | is | is
    · left
      rw [turn_open pair, open_eq, if_pos full]
      exact ⟨full, rfl⟩
    · right
      rw [turn_close pair, turn_close pair]
    · rw [turn_string, turn_string]
      cases ends : stringEnd (p.pos + 1) (js.drop (p.pos + 1)) with
      | error e =>
          right
          rw [parseString_error ends, parseString_error ends]
      | ok stop =>
          left
          rw [parseString_of ends, if_pos full]
          exact ⟨full, rfl⟩
    · right
      rw [turn_skip is, turn_skip is]
    · rw [turn_primitive is, turn_primitive is]
      cases ends : primitiveEnd p.pos (js.drop p.pos) with
      | none =>
          right
          rw [parsePrimitive_inval ends, parsePrimitive_inval ends]
      | some stop =>
          left
          rw [parsePrimitive_of ends, if_pos full]
          exact ⟨full, rfl⟩
  · right
    rcases turn_cases c with ⟨kind, b, pair⟩ | ⟨kind, a, pair⟩ | rfl | is | is
    · rw [turn_open pair, turn_open pair, open_eq, open_eq, if_neg full, if_neg enough]
    · rw [turn_close pair, turn_close pair]
    · rw [turn_string, turn_string]
      cases ends : stringEnd (p.pos + 1) (js.drop (p.pos + 1)) with
      | error e => rw [parseString_error ends, parseString_error ends]
      | ok stop => rw [parseString_of ends, parseString_of ends, if_neg full, if_neg enough]
    · rw [turn_skip is, turn_skip is]
    · rw [turn_primitive is, turn_primitive is]
      cases ends : primitiveEnd p.pos (js.drop p.pos) with
      | none => rw [parsePrimitive_inval ends, parsePrimitive_inval ends]
      | some stop => rw [parsePrimitive_of ends, parsePrimitive_of ends, if_neg full, if_neg enough]

theorem stringEnd_nomem (pos : ℕ) (l : List Char) : stringEnd pos l ≠ .error .nomem := by
  fun_induction stringEnd pos l with
  | case1 => exact nofun
  | case2 => exact nofun
  | case3 => exact nofun
  | case4 pos d rest escape known ih => exact ih
  | case5 => exact nofun
  | case6 pos c rest quote backslash ih => exact ih

theorem close_nomem : p.close kind ≠ .error .nomem := by
  rw [Parser.close]
  cases lastOpen p.tokens with
  | none => exact nofun
  | some found =>
      dsimp only
      split <;> exact nofun

/-- Only a full array asks for more memory. -/
theorem turn_nomem (turned : p.turn numTokens js c = .error .nomem) : numTokens ≤ p.tokens.length := by
  by_contra room
  rcases turn_cases c with ⟨kind, b, pair⟩ | ⟨kind, a, pair⟩ | rfl | is | is
  · rw [turn_open pair, open_eq, if_neg room] at turned
    cases turned
  · rw [turn_close pair] at turned
    exact close_nomem turned
  · rw [turn_string] at turned
    cases ends : stringEnd (p.pos + 1) (js.drop (p.pos + 1)) with
    | error e =>
        rw [parseString_error ends] at turned
        cases turned
        exact stringEnd_nomem _ _ ends
    | ok stop =>
        rw [parseString_of ends, if_neg room] at turned
        cases turned
  · rw [turn_skip is] at turned
    cases turned
  · rw [turn_primitive is] at turned
    cases ends : primitiveEnd p.pos (js.drop p.pos) with
    | none =>
        rw [parsePrimitive_inval ends] at turned
        cases turned
    | some stop =>
        rw [parsePrimitive_of ends, if_neg room] at turned
        cases turned

theorem parse_end (numTokens : ℕ) (done : js[p.pos]? = none) (fuel : ℕ) : p.parse numTokens js (fuel + 1) =
    .ret (if (lastOpen p.tokens).isSome then some .part else none, p) := by
  rw [Parser.parse, done]

theorem parse_error (here : js[p.pos]? = some c) (bad : p.turn numTokens js c = .error e) (fuel : ℕ) :
    p.parse numTokens js (fuel + 1) = .ret (some e, p) := by
  rw [Parser.parse, here]
  dsimp only
  rw [bad]

theorem parse_step (here : js[p.pos]? = some c) (ok : p.turn numTokens js c = .ok q) (fuel : ℕ) :
    p.parse numTokens js (fuel + 1) = Parser.parse numTokens js fuel { q with pos := q.pos + 1 } := by
  rw [Parser.parse, here]
  dsimp only
  rw [ok]

/-- The loop ends, since each turn moves on. -/
theorem parse_ends (numTokens : ℕ) (h : Spine js p.pos p.tokens p.toksuper) {fuel : ℕ}
    (enough : js.length < p.pos + fuel) : ∃ r q, p.parse numTokens js fuel = .ret (r, q) := by
  induction fuel generalizing p with
  | zero => exact absurd enough (Nat.not_lt.mpr h.inside_text)
  | succ fuel ih =>
      cases here : js[p.pos]? with
      | none => exact ⟨_, _, parse_end numTokens here fuel⟩
      | some c =>
          cases turned : p.turn numTokens js c with
          | error e => exact ⟨_, _, parse_error here turned fuel⟩
          | ok q =>
              obtain ⟨forward, next⟩ := h.turn here turned
              rw [parse_step here turned]
              exact ih (p := { q with pos := q.pos + 1 }) next (by dsimp only; omega)

theorem parse_settles (numTokens : ℕ) (js : List Char) (p : Parser) :
    Outcome.Settles fun fuel => p.parse numTokens js fuel := by
  intro n r ret
  induction n generalizing p with
  | zero => cases ret
  | succ n ih =>
      dsimp only at ret ⊢
      cases here : js[p.pos]? with
      | none =>
          rw [parse_end _ here] at ret ⊢
          exact ret
      | some c =>
          cases turned : p.turn numTokens js c with
          | error e =>
              rw [parse_error here turned] at ret ⊢
              exact ret
          | ok q =>
              rw [parse_step here turned] at ret ⊢
              exact ih _ ret

theorem parse_spine (h : Spine js p.pos p.tokens p.toksuper) {fuel : ℕ} {r : Option Err}
    (ret : p.parse numTokens js fuel = .ret (r, q)) : Spine js q.pos q.tokens q.toksuper ∧
      (r = none → q.pos = js.length ∧ q.toksuper = none) := by
  induction fuel generalizing p with
  | zero => cases ret
  | succ fuel ih =>
      cases here : js[p.pos]? with
      | none =>
          rw [parse_end _ here] at ret
          cases ret
          refine ⟨h, fun none => ?_⟩
          have past := List.getElem?_eq_none_iff.mp here
          refine ⟨Nat.le_antisymm h.inside_text past, ?_⟩
          rw [← h.last]
          cases last : lastOpen q.tokens with
          | none => rfl
          | some found =>
              rw [last] at none
              cases none
      | some c =>
          cases turned : p.turn numTokens js c with
          | error e =>
              rw [parse_error here turned] at ret
              cases ret
              exact ⟨h, fun none => by cases none⟩
          | ok q' =>
              rw [parse_step here turned] at ret
              exact ih (p := { q' with pos := q'.pos + 1 }) (h.turn here turned).2 ret

/-- With as many tokens as there are characters the array is never full. Where a smaller one is, nothing is
lost: the loop goes on from there. -/
theorem parse_resume {most : ℕ} (room : js.length < most) (h : Spine js p.pos p.tokens p.toksuper) {fuel : ℕ}
    {r : Option Err} (ret : p.parse numTokens js fuel = .ret (r, q)) :
    p.parse most js fuel = .ret (r, q) ∧ r ≠ some .nomem ∨
      r = some .nomem ∧ numTokens ≤ q.tokens.length ∧
        ∀ more x, q.parse most js more = .ret x → p.parse most js (fuel + more) = .ret x := by
  have fits : ∀ {p : Parser}, Spine js p.pos p.tokens p.toksuper → p.tokens.length < most := fun h =>
    Nat.lt_of_le_of_lt (h.room.trans h.inside_text) room
  induction fuel generalizing p with
  | zero => cases ret
  | succ fuel ih =>
      cases here : js[p.pos]? with
      | none =>
          rw [parse_end _ here] at ret ⊢
          cases ret
          refine .inl ⟨rfl, ?_⟩
          split <;> exact nofun
      | some c =>
          have limit : numTokens ≤ p.tokens.length ∧ p.turn numTokens js c = .error .nomem ∨
              p.turn numTokens js c = p.turn most js c := turn_limit most (fits h)
          rcases limit with ⟨full, stopped⟩ | same
          · rw [parse_error here stopped] at ret
            cases ret
            refine .inr ⟨rfl, full, fun more x later => ?_⟩
            have settled := (parse_settles most js q).later later (fuel + 1)
            rwa [Nat.add_comm] at settled
          · cases turned : p.turn most js c with
            | error e =>
                rw [turned] at same
                rw [parse_error here same] at ret
                rw [parse_error here turned]
                cases ret
                refine .inl ⟨rfl, ?_⟩
                rintro ⟨⟩
                exact absurd (turn_nomem turned) (Nat.not_le.mpr (fits h))
            | ok q' =>
                rw [turned] at same
                rw [parse_step here same] at ret
                have next := (h.turn here same).2
                rcases ih (p := { q' with pos := q'.pos + 1 }) next ret with ⟨whole, done⟩ | ⟨nomem, full, later⟩
                · refine .inl ⟨?_, done⟩
                  rwa [parse_step here turned]
                · refine .inr ⟨nomem, full, fun more x found => ?_⟩
                  rw [Nat.succ_add, parse_step here turned]
                  exact later more x found

end

section
variable {js : List Char} {p q : Parser} {i j n : ℕ} {ts : List Tok}

/-- What `_json_tokenize` makes of a result. -/
def answer (r : Option Err) (tokens : List Tok) : Option (List Tok) := if r = none then some tokens else none

theorem tokenize_again {fuel nTokens : ℕ} (ret : p.parse nTokens js fuel = .ret (some .nomem, q)) :
    tokenizeLoop js (fuel + 1) nTokens p = tokenizeLoop js fuel (nTokens * 2) q := by
  rw [tokenizeLoop, ret]
  rfl

theorem tokenize_answer {fuel nTokens : ℕ} {r : Option Err} (ret : p.parse nTokens js fuel = .ret (r, q))
    (enough : r ≠ some .nomem) : tokenizeLoop js (fuel + 1) nTokens p = .ret (answer r q.tokens) := by
  rw [tokenizeLoop, ret]
  cases r with
  | none => rfl
  | some e =>
      cases e with
      | nomem => exact absurd rfl enough
      | inval => rfl
      | part => rfl

theorem tokenizeLoop_settles (js : List Char) (nTokens : ℕ) (p : Parser) :
    Outcome.Settles fun fuel => tokenizeLoop js fuel nTokens p := by
  intro n r ret
  induction n generalizing nTokens p with
  | zero => cases ret
  | succ n ih =>
      dsimp only at ret ⊢
      cases first : p.parse nTokens js n with
      | ret x =>
          obtain ⟨e, q⟩ := x
          have later := parse_settles nTokens js p n _ first
          by_cases nomem : e = some .nomem
          · subst nomem
            rw [tokenize_again first] at ret
            rw [tokenize_again later]
            exact ih _ _ ret
          · rw [tokenize_answer first nomem] at ret
            rwa [tokenize_answer later nomem]
      | throw =>
          rw [tokenizeLoop, first] at ret
          cases ret
      | abort =>
          rw [tokenizeLoop, first] at ret
          cases ret
      | timeout =>
          rw [tokenizeLoop, first] at ret
          cases ret

/-- Doubling the array often enough answers as an array for a token at each character does at once. -/
theorem tokenize_answers {most : ℕ} (nTokens : ℕ) (room : js.length < most) (start : 0 < nTokens)
    (h : Spine js p.pos p.tokens p.toksuper) {r : Option Err} {fuel : ℕ} (whole : p.parse most js fuel = .ret (r, q)) :
    ∃ fuel, tokenizeLoop js fuel nTokens p = .ret (answer r q.tokens) := by
  -- by how often the array can still be too small
  obtain ⟨k, short⟩ : ∃ k, js.length < nTokens + k := ⟨js.length, Nat.lt_add_of_pos_left start⟩
  induction k generalizing nTokens p fuel with
  | zero =>
      obtain ⟨r', q', ret⟩ := parse_ends nTokens h (Nat.lt_add_left p.pos (Nat.lt_succ_self js.length))
      rcases parse_resume room h ret with ⟨same, enough⟩ | ⟨-, full, -⟩
      · obtain ⟨rfl, rfl⟩ := Prod.mk.inj ((parse_settles most js p).eq_of_ret same whole)
        exact ⟨_, tokenize_answer ret enough⟩
      · have spine := (parse_spine h ret).1
        have inside := spine.room.trans spine.inside_text
        omega
  | succ k ih =>
      obtain ⟨r', q', ret⟩ := parse_ends nTokens h (Nat.lt_add_left p.pos (Nat.lt_succ_self js.length))
      rcases parse_resume room h ret with ⟨same, enough⟩ | ⟨rfl, full, later⟩
      · obtain ⟨rfl, rfl⟩ := Prod.mk.inj ((parse_settles most js p).eq_of_ret same whole)
        exact ⟨_, tokenize_answer ret enough⟩
      · have spine := (parse_spine h ret).1
        obtain ⟨r'', q'', rest⟩ := parse_ends most spine
          (Nat.lt_add_left q'.pos (Nat.lt_succ_self js.length))
        obtain ⟨rfl, rfl⟩ := Prod.mk.inj ((parse_settles most js p).eq_of_ret (later _ _ rest) whole)
        obtain ⟨n, found⟩ := ih (nTokens * 2) (Nat.mul_pos start Nat.two_pos) spine rest (by omega)
        refine ⟨n + (js.length + 1) + 1, ?_⟩
        rw [tokenize_again (q := q')]
        · exact (tokenizeLoop_settles js _ q').later found _
        · rw [Nat.add_comm n]
          exact (parse_settles nTokens js p).later ret n

/-- A run from the end of some values continues one from their beginning. -/
theorem Reads.run {most : ℕ} (room : js.length < most) (reads : Reads js i j n ts) {us : List Tok}
    {super : Option ℕ} (spine : Spine js i us super) {fuel : ℕ} {x : Option Err × Parser}
    (rest : Parser.parse most js fuel ⟨j, super, (bump super)^[n] us ++ ts⟩ = .ret x) :
    ∃ fuel, Parser.parse most js fuel ⟨i, super, us⟩ = .ret x := by
  have fits : ∀ {i us super}, Spine js i us super → ¬ most ≤ us.length := fun h =>
    Nat.not_le.mpr (Nat.lt_of_le_of_lt (h.room.trans h.inside_text) room)
  induction reads generalizing us super fuel with
  | nil =>
      rw [List.append_nil] at rest
      exact ⟨fuel, rest⟩
  | @skip i j n ts c here is _ ih =>
      obtain ⟨fuel, ret⟩ := ih (spine.skip (.skip here is .nil)) rest
      exact ⟨fuel + 1, (parse_step (p := ⟨i, super, us⟩) here (turn_skip is) fuel).trans ret⟩
  | @string i j n stop ts here ends _ ih =>
      have one := spine.value (.string here ends .nil)
      rw [Function.iterate_succ_apply, List.append_cons, ← bumps_append (by simpa using spine.super_lt)] at rest
      obtain ⟨fuel, ret⟩ := ih one rest
      refine ⟨fuel + 1, ?_⟩
      have turned : Parser.turn most js '"' ⟨i, super, us⟩ =
          .ok ⟨stop, super, bump super us ++ [⟨.string, i + 1, some stop, 0⟩]⟩ := by
        rw [turn_string, parseString_of ends, if_neg (fits spine), ← bump_append spine.super_lt]
        rfl
      exact (parse_step (p := ⟨i, super, us⟩) here turned fuel).trans ret
  | @primitive i j n stop ts c here is ends _ ih =>
      have one := spine.value (.primitive here is ends .nil)
      rw [Function.iterate_succ_apply, List.append_cons, ← bumps_append (by simpa using spine.super_lt)] at rest
      obtain ⟨fuel, ret⟩ := ih one rest
      refine ⟨fuel + 1, ?_⟩
      have turned : Parser.turn most js c ⟨i, super, us⟩ =
          .ok ⟨stop - 1, super, bump super us ++ [⟨.primitive, i, some stop, 0⟩]⟩ := by
        rw [turn_primitive is, parsePrimitive_of ends, if_neg (fits spine), ← bump_append spine.super_lt]
        rfl
      have back : stop - 1 + 1 = stop := Nat.sub_add_cancel (Nat.zero_lt_of_lt (primitive_some here is ends).1)
      refine (parse_step (p := ⟨i, super, us⟩) here turned fuel).trans ?_
      dsimp only
      rwa [back]
  | @node i j k m n kind a b inner ts pair here inside there _ ih ih' =>
      have one := spine.value (.node pair here inside there .nil)
      rw [List.append_nil] at one
      have eq : (bump super)^[n + 1] us ++ ⟨kind, i, some (k + 1), m⟩ :: (inner ++ ts) =
          (bump super)^[n] (bump super us ++ ⟨kind, i, some (k + 1), m⟩ :: inner) ++ ts := by
        rw [bumps_append (by simpa using spine.super_lt), Function.iterate_succ_apply, List.append_assoc,
          List.cons_append]
      rw [eq] at rest
      obtain ⟨fuel₂, after⟩ := ih' one rest
      have opened := spine.opened pair here
      -- up to the bracket that closes it
      have closing : Parser.turn most js b ⟨k, some us.length, bump super us ++ ⟨kind, i, none, m⟩ :: inner⟩ =
          .ok ⟨k, super, bump super us ++ ⟨kind, i, some (k + 1), m⟩ :: inner⟩ := by
        rw [turn_close pair, close_of rfl rfl inside.closed ((lastOpen_bump super us).trans spine.last)]
        exact if_neg (not_not.mpr rfl)
      have closed := (parse_step (p := ⟨k, some us.length, _⟩) there closing fuel₂).trans after
      have sizes := bumps_at m (bump super us) [] ⟨kind, i, none, 0⟩
      rw [bump_length] at sizes
      rw [Nat.zero_add] at sizes
      rw [← List.singleton_append, ← List.append_assoc, ← sizes] at closed
      obtain ⟨fuel₁, ret⟩ := ih opened closed
      refine ⟨fuel₁ + 1, ?_⟩
      have turned : Parser.turn most js a ⟨i, super, us⟩ =
          .ok ⟨i, some us.length, bump super us ++ [⟨kind, i, none, 0⟩]⟩ := by
        rw [turn_open pair, open_eq, if_neg (fits spine), bump_append spine.super_lt]
      exact (parse_step (p := ⟨i, super, us⟩) here turned fuel₁).trans ret

/-- However often the array has to grow, the tokens are those of the values that make up the text; a text that
no values make up has none. -/
theorem tokenize_accepts (js : List Char) : ∃ r, Outcome.Reaches (jsonTokenize js) r ∧
    ∀ ts, r = some ts ↔ ∃ n, Reads js 0 js.length n ts := by
  have start : Spine js 0 [] none := .base .nil
  obtain ⟨r, q, ret⟩ := parse_ends (js.length + 1) (p := .init) start
    (Nat.lt_add_left 0 (Nat.lt_succ_self js.length))
  obtain ⟨fuel, answered⟩ := tokenize_answers 512 (Nat.lt_succ_self _) (by decide) start ret
  refine ⟨_, (tokenizeLoop_settles js 512 .init).reaches answered, fun ts => ⟨fun eq => ?_, fun ⟨n, reads⟩ => ?_⟩⟩
  · obtain ⟨spine, done⟩ := parse_spine (p := .init) start ret
    cases r with
    | some e => cases eq
    | none =>
        cases eq
        obtain ⟨pos, super⟩ := done rfl
        rw [pos, super] at spine
        generalize q.tokens = ts at spine
        cases spine with
        | base values => exact ⟨_, values⟩
  · have ended := parse_end (js.length + 1) (p := ⟨js.length, none, ts⟩)
      (List.getElem?_eq_none (Nat.le_refl _)) 0
    rw [lastOpen_closed reads.closed] at ended
    obtain ⟨fuel', ret'⟩ := reads.run (Nat.lt_succ_self _) start (by rw [bump_none]; exact ended)
    obtain ⟨rfl, rfl⟩ := Prod.mk.inj ((parse_settles _ js .init).eq_of_ret ret ret')
    rfl

end
end Mio.Adapters.Jsmn
