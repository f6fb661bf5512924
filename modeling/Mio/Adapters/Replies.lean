import Mio.Adapters.Enfuse
import Mio.Adapters.Hue
import Mio.Adapters.Jsmn
import Mio.Lib.JsonText

/-! From the text of a reply to the tokens that the walks of the Hue and the Enfuse adapter read: what the
text spells, without places, and the replies on which a walk leaves the tokens. -/
namespace Mio.Adapters.Replies

open Tokens Jsmn

/-- The text of a token as `_get_tok_string` copies it. -/
def token (js : List Char) (t : Tok) : Token := ⟨t.kind, (js.take (t.stop.getD 0)).drop t.start, t.size⟩

inductive Quoted : List Char → Prop
  | nil : Quoted []
  | char {c : Char} {cs : List Char} (quote : c ≠ '"') (backslash : c ≠ '\\') (rest : Quoted cs) : Quoted (c :: cs)
  | escape {c : Char} {cs : List Char} (known : escapable c = true) (rest : Quoted cs) : Quoted ('\\' :: c :: cs)

/-- May stand in a primitive. -/
def inWord (c : Char) : Prop := delimiter c = false ∧ 32 ≤ c.toNat ∧ c.toNat < 127

def Delimited (t : List Char) : Prop := ∀ c, t.head? = some c → delimiter c = true

/-- So many values with these tokens; between them stand blanks, colons and commas in any order. -/
inductive Spells : ℕ → List Token → List Char → Prop
  | nil : Spells 0 [] []
  | skip {n : ℕ} {ts : List Token} {c : Char} {text : List Char} (is : skipped c = true) (rest : Spells n ts text) :
      Spells n ts (c :: text)
  | string {n : ℕ} {ts : List Token} {cs text : List Char} (chars : Quoted cs) (rest : Spells n ts text) :
      Spells (n + 1) (⟨.string, cs, 0⟩ :: ts) ('"' :: (cs ++ '"' :: text))
  | primitive {n : ℕ} {ts : List Token} {c : Char} {cs text : List Char} (is : plain c)
      (word : ∀ d ∈ c :: cs, inWord d) (apart : Delimited text) (rest : Spells n ts text) :
      Spells (n + 1) (⟨.primitive, c :: cs, 0⟩ :: ts) (c :: (cs ++ text))
  | node {m n : ℕ} {kind : Kind} {a b : Char} {inner ts : List Token} {inside text : List Char}
      (pair : brackets kind = some (a, b)) (values : Spells m inner inside) (rest : Spells n ts text) :
      Spells (n + 1) (⟨kind, a :: (inside ++ [b]), m⟩ :: (inner ++ ts)) (a :: (inside ++ b :: text))

section
variable {js pre post text cs : List Char} {i j pos stop m n : ℕ} {ts : List Tok} {tokens us : List Token} {c : Char}

theorem stringEnd_char (quote : c ≠ '"') (backslash : c ≠ '\\') :
    stringEnd pos (c :: text) = stringEnd (pos + 1) text := by
  rw [stringEnd.eq_def]
  dsimp only
  rw [if_neg quote, if_neg backslash]

theorem stringEnd_escape (known : escapable c = true) :
    stringEnd pos ('\\' :: c :: text) = stringEnd (pos + 2) text := by
  rw [stringEnd.eq_def]
  exact if_pos known

theorem stringEnd_of (chars : Quoted cs) (pos : ℕ) (rest : List Char) :
    stringEnd pos (cs ++ '"' :: rest) = .ok (pos + cs.length) := by
  induction chars generalizing pos with
  | nil =>
      rw [List.nil_append, stringEnd.eq_def]
      exact if_pos rfl
  | char quote backslash _ ih =>
      rw [List.cons_append, stringEnd_char quote backslash, ih, List.length_cons]
      congr 1
      omega
  | escape known _ ih =>
      rw [List.cons_append, List.cons_append, stringEnd_escape known, ih, List.length_cons, List.length_cons]
      congr 1
      omega

theorem stringEnd_quoted (ends : stringEnd pos text = .ok stop) :
    ∃ cs rest, text = cs ++ '"' :: rest ∧ Quoted cs ∧ stop = pos + cs.length := by
  fun_induction stringEnd pos text with
  | case1 => cases ends
  | case2 pos rest =>
      cases ends
      exact ⟨[], rest, rfl, .nil, rfl⟩
  | case3 => cases ends
  | case4 pos d rest known _ ih =>
      obtain ⟨cs, rest, rfl, chars, rfl⟩ := ih ends
      refine ⟨_, rest, rfl, .escape known chars, ?_⟩
      rw [List.length_cons, List.length_cons]
      omega
  | case5 => cases ends
  | case6 pos c rest quote backslash ih =>
      obtain ⟨cs, rest, rfl, chars, rfl⟩ := ih ends
      refine ⟨_, rest, rfl, .char quote backslash chars, ?_⟩
      rw [List.length_cons]
      omega

theorem primitiveEnd_of (word : ∀ d ∈ cs, inWord d) (apart : Delimited text) (pos : ℕ) :
    primitiveEnd pos (cs ++ text) = some (pos + cs.length) := by
  induction cs generalizing pos with
  | nil =>
      cases text with
      | nil => rfl
      | cons c text => rw [List.nil_append, primitiveEnd, if_pos (apart c rfl)]; rfl
  | cons c cs ih =>
      obtain ⟨inside, low, high⟩ := word c List.mem_cons_self
      have here : ¬ (c.toNat < 32 ∨ 127 ≤ c.toNat) := by omega
      rw [List.cons_append, primitiveEnd, if_neg (by rw [inside]; exact Bool.false_ne_true), if_neg here,
        ih (fun d mem => word d (List.mem_cons_of_mem c mem)), List.length_cons]
      congr 1
      omega

theorem primitiveEnd_word (ends : primitiveEnd pos text = some stop) :
    ∃ cs rest, text = cs ++ rest ∧ (∀ d ∈ cs, inWord d) ∧ Delimited rest ∧ stop = pos + cs.length := by
  induction text generalizing pos with
  | nil =>
      cases ends
      exact ⟨[], [], rfl, fun d mem => (List.not_mem_nil mem).elim, (fun c eq => nomatch eq), rfl⟩
  | cons c text ih =>
      rw [primitiveEnd] at ends
      split at ends
      · next delimits =>
          cases ends
          refine ⟨[], c :: text, rfl, fun d mem => (List.not_mem_nil mem).elim, fun d eq => ?_, rfl⟩
          cases eq
          exact delimits
      · next inside =>
          split at ends
          · cases ends
          · next range =>
              obtain ⟨cs, rest, rfl, word, apart, rfl⟩ := ih ends
              have here : inWord c := ⟨by simpa using inside, by omega, by omega⟩
              refine ⟨c :: cs, rest, rfl, List.forall_mem_cons.mpr ⟨here, word⟩, apart, ?_⟩
              rw [List.length_cons]
              omega

theorem getElem?_of_drop (place : js.drop i = c :: text) : js[i]? = some c := by
  have head := List.head?_drop (l := js) (i := i)
  rw [place] at head
  exact head.symm

theorem drop_step (place : js.drop i = c :: text) : js.drop (i + 1) = text := by
  rw [← List.drop_drop, place]
  rfl

theorem drop_past (place : js.drop i = text ++ post) : js.drop (i + text.length) = post := by
  rw [← List.drop_drop, place, List.drop_left]

theorem token_at (place : js.drop i = text ++ post) (kind : Kind) (size : ℕ) :
    token js ⟨kind, i, some (i + text.length), size⟩ = ⟨kind, text, size⟩ := by
  rw [token, Option.getD_some, List.drop_take, place, Nat.add_sub_cancel_left, List.take_left]

theorem delimited_nil : Delimited [] := fun _ eq => nomatch eq

theorem Delimited.left (apart : Delimited (text ++ post)) : Delimited text := by
  cases text with
  | nil => exact delimited_nil
  | cons c text => exact apart

theorem reads_of_spells (spells : Spells n tokens text) (apart : Delimited post) (place : js.drop i = text ++ post) :
    ∃ ts, Reads js i (i + text.length) n ts ∧ ts.map (token js) = tokens := by
  induction spells generalizing i post with
  | nil => exact ⟨[], .nil, rfl⟩
  | @skip n ts c text is _ ih =>
      obtain ⟨ts, reads, eq⟩ := ih apart (drop_step place)
      rw [List.length_cons, Nat.add_comm text.length, ← Nat.add_assoc]
      exact ⟨ts, .skip (getElem?_of_drop place) is reads, eq⟩
  | @string n ts cs text chars _ ih =>
      rw [List.cons_append, List.append_assoc] at place
      have inside := drop_step place
      have behind := drop_step (drop_past inside)
      obtain ⟨ts, reads, eq⟩ := ih apart behind
      have ends : stringEnd (i + 1) (js.drop (i + 1)) = .ok (i + 1 + cs.length) := by
        rw [inside]
        exact stringEnd_of chars _ _
      have far : i + ('"' :: (cs ++ '"' :: text)).length = i + 1 + cs.length + 1 + text.length := by
        rw [List.length_cons, List.length_append, List.length_cons]
        omega
      rw [far]
      refine ⟨_, .string (getElem?_of_drop place) ends reads, ?_⟩
      rw [List.map_cons, eq, token_at inside]
  | @primitive n ts c cs text is word apart' _ ih =>
      have whole : js.drop i = (c :: cs) ++ (text ++ post) := by
        rw [place, List.cons_append, List.append_assoc]
        rfl
      have delimited : Delimited (text ++ post) := by
        cases text with
        | nil => exact apart
        | cons d text => exact apart'
      obtain ⟨ts, reads, eq⟩ := ih apart (drop_past whole)
      have ends : primitiveEnd i (js.drop i) = some (i + (c :: cs).length) := by
        rw [whole]
        exact primitiveEnd_of word delimited i
      have far : i + (c :: (cs ++ text)).length = i + (c :: cs).length + text.length := by
        rw [List.length_cons, List.length_append, List.length_cons]
        omega
      rw [far]
      refine ⟨_, .primitive (getElem?_of_drop place) is ends reads, ?_⟩
      rw [List.map_cons, eq, token_at whole]
  | @node m n kind a b inner ts inside text pair _ _ ih ih' =>
      rw [List.cons_append, List.append_assoc, List.cons_append] at place
      have first := drop_step place
      have closing : delimiter b = true := by
        cases kind <;> cases pair <;> rfl
      have apart' : Delimited (b :: (text ++ post)) := fun c eq => by cases eq; exact closing
      obtain ⟨inner, inReads, inEq⟩ := ih apart' first
      have last := drop_past first
      obtain ⟨ts, reads, eq⟩ := ih' apart (drop_step last)
      have far : i + (a :: (inside ++ b :: text)).length = i + 1 + inside.length + 1 + text.length := by
        rw [List.length_cons, List.length_append, List.length_cons]
        omega
      rw [far]
      refine ⟨_, .node pair (getElem?_of_drop place) inReads (getElem?_of_drop last) reads, ?_⟩
      have whole : js.drop i = (a :: (inside ++ [b])) ++ (text ++ post) := by
        rw [place, List.cons_append, List.append_assoc]
        rfl
      have at_end : i + 1 + inside.length + 1 = i + (a :: (inside ++ [b])).length := by
        rw [List.length_cons, List.length_append, List.length_singleton]
        omega
      rw [List.map_cons, List.map_append, inEq, eq, at_end, token_at whole]

theorem spells_of_reads (reads : Reads js i j n ts) :
    ∃ text post, js.drop i = text ++ post ∧ j = i + text.length ∧ Spells n (ts.map (token js)) text := by
  induction reads with
  | @nil i => exact ⟨[], js.drop i, rfl, rfl, .nil⟩
  | @skip i j n ts c here is _ ih =>
      obtain ⟨text, post, place, rfl, spells⟩ := ih
      refine ⟨c :: text, post, ?_, ?_, .skip is spells⟩
      · rw [drop_of_getElem? here, place]
        rfl
      · rw [List.length_cons]
        omega
  | @string i j n stop ts here ends _ ih =>
      obtain ⟨text, post, place, rfl, spells⟩ := ih
      obtain ⟨cs, rest, inside, chars, rfl⟩ := stringEnd_quoted ends
      have behind := drop_step (drop_past inside)
      rw [place] at behind
      subst behind
      refine ⟨'"' :: (cs ++ '"' :: text), post, ?_, ?_, ?_⟩
      · rw [drop_of_getElem? here, inside]
        simp
      · rw [List.length_cons, List.length_append, List.length_cons]
        omega
      · rw [List.map_cons, token_at inside]
        exact .string chars spells
  | @primitive i j n stop ts c here is ends _ ih =>
      obtain ⟨text, post, place, rfl, spells⟩ := ih
      have later := (primitive_some here is ends).1
      obtain ⟨cs, rest, inside, word, apart, rfl⟩ := primitiveEnd_word ends
      have behind := drop_past inside
      rw [place] at behind
      subst behind
      have start := drop_of_getElem? here
      rw [inside] at start
      cases cs with
      | nil => exact absurd later (Nat.lt_irrefl i)
      | cons d cs =>
          obtain ⟨rfl, -⟩ := List.cons.inj start
          refine ⟨d :: (cs ++ text), post, ?_, ?_, ?_⟩
          · rw [inside]
            simp
          · rw [List.length_cons, List.length_cons, List.length_append]
            omega
          · rw [List.map_cons, token_at inside]
            exact .primitive is word apart.left spells
  | @node i j k m n kind a b inner ts pair here _ there _ ih ih' =>
      obtain ⟨inside, post', first, rfl, inSpells⟩ := ih
      obtain ⟨text, post, place, rfl, spells⟩ := ih'
      have last := drop_past first
      rw [drop_of_getElem? there, place] at last
      subst last
      have whole : js.drop i = (a :: (inside ++ [b])) ++ (text ++ post) := by
        rw [drop_of_getElem? here, first]
        simp
      have at_end : i + 1 + inside.length + 1 = i + (a :: (inside ++ [b])).length := by
        rw [List.length_cons, List.length_append, List.length_singleton]
        omega
      refine ⟨a :: (inside ++ b :: text), post, ?_, ?_, ?_⟩
      · rw [whole]
        simp
      · rw [List.length_cons, List.length_append, List.length_cons]
        omega
      · rw [List.map_cons, List.map_append, at_end, token_at whole]
        exact .node pair inSpells spells

theorem Spells.layout (spells : Spells n tokens text) : Layout n tokens := by
  induction spells with
  | nil => exact .nil
  | skip is _ ih => exact ih
  | string chars _ ih => exact .leaf rfl ih
  | primitive is word apart _ ih => exact .leaf rfl ih
  | @node m n kind a b inner ts inside text pair _ _ ih ih' =>
      refine Layout.cons ?_ ih'
      cases kind with
      | object => exact ih
      | array => exact ih
      | primitive => cases pair
      | string => cases pair

theorem Spells.tokens_nil (spells : Spells n tokens text) : tokens = [] ↔ ∀ c ∈ text, skipped c = true := by
  have other : ∀ {c : Char} {text : List Char}, skipped c = false → ¬ ∀ d ∈ c :: text, skipped d = true := by
    intro c text no all
    rw [all c List.mem_cons_self] at no
    cases no
  induction spells with
  | nil => exact ⟨fun _ c mem => (List.not_mem_nil mem).elim, fun _ => rfl⟩
  | skip is _ ih =>
      refine Iff.trans ih ⟨fun rest => List.forall_mem_cons.mpr ⟨is, rest⟩, fun all => ?_⟩
      exact (List.forall_mem_cons.mp all).2
  | string => exact ⟨nofun, fun all => (other rfl all).elim⟩
  | primitive is => exact ⟨nofun, fun all => (other is.2.2.2.2.2 all).elim⟩
  | @node m n kind a b inner ts inside text pair =>
      refine ⟨nofun, fun all => (other ?_ all).elim⟩
      cases kind <;> cases pair <;> rfl

/-- Where the tokenizer answers with the values it reads, it answers with the values the text spells. -/
theorem spelled_iff {js : List Char} {r : Option (List Tok)}
    (accepted : ∀ ts, r = some ts ↔ ∃ n, Reads js 0 js.length n ts) (tokens : List Token) :
    r.map (List.map (token js)) = some tokens ↔ ∃ n, Spells n tokens js := by
  refine ⟨fun eq => ?_, fun ⟨n, spells⟩ => ?_⟩
  · obtain ⟨ts, rfl, rfl⟩ := Option.map_eq_some_iff.mp eq
    obtain ⟨n, reads⟩ := (accepted ts).mp rfl
    obtain ⟨text, post, place, whole, spells⟩ := spells_of_reads reads
    rw [List.drop_zero] at place
    obtain rfl : post = [] := by
      have length := congrArg List.length place
      rw [List.length_append] at length
      exact List.eq_nil_of_length_eq_zero (by omega)
    rw [List.append_nil] at place
    subst place
    exact ⟨n, spells⟩
  · obtain ⟨ts, reads, rfl⟩ := reads_of_spells (i := 0) spells delimited_nil (by rw [List.drop_zero, List.append_nil])
    rw [Nat.zero_add] at reads
    rw [(accepted ts).mpr ⟨n, reads⟩]
    rfl

/-- A text is tokenized if and only if it spells values, and the tokens are theirs, however often the array
has to grow. The places are natural numbers: a text has less than 2^31 bytes in the source, where they are `int`. -/
theorem tokenize_spells (js : List Char) : ∃ r, Outcome.Reaches (jsonTokenize js) r ∧
    ∀ tokens, r.map (List.map (token js)) = some tokens ↔ ∃ n, Spells n tokens js := by
  obtain ⟨r, reaches, accepted⟩ := tokenize_accepts js
  exact ⟨r, reaches, spelled_iff accepted⟩

example : jsonTokenize "[1]".toList 12 = .ret (some [⟨.array, 0, some 3, 1⟩, ⟨.primitive, 1, some 2, 0⟩]) := rfl

end

section
variable {ε σ D R : Type} {beyond : ε} {step : σ → Token → Outcome ε σ} {n : ℕ} {tokens : List Token}
  {text : List Char}

theorem ret_ne_throw {e : ε} (a : R) : (.ret a : Outcome ε R) ≠ .throw e := fun h => by cases h

theorem throw_ne_throw {e e' : ε} (ne : e ≠ e') : (.throw e : Outcome ε R) ≠ .throw e' := fun h => by
  cases h
  exact ne rfl

theorem bind_ne_throw {α β : Type} {e : ε} {x : Outcome ε α} {f : α → Outcome ε β} (first : x ≠ .throw e)
    (next : ∀ a, f a ≠ .throw e) : x >>= f ≠ .throw e := by
  intro thrown
  rcases Outcome.bind_eq_throw.mp thrown with here | ⟨a, -, later⟩
  · exact first here
  · exact next a later

theorem foldlM_ne_throw {e : ε} (each : ∀ s t, step s t ≠ .throw e) (ts : List Token) (s : σ) :
    ts.foldlM step s ≠ .throw e := by
  induction ts generalizing s with
  | nil => exact ret_ne_throw s
  | cons t ts ih =>
      rw [List.foldlM_cons]
      exact bind_ne_throw (each s t) ih

/-- A walk reads the first value, and leaves the tokens if there is none. -/
theorem walk_beyond_iff (spells : Spells n tokens text) (each : ∀ s t, step s t ≠ .throw beyond) (s : σ) :
    walk beyond step 1 s tokens = .throw beyond ↔ ∀ c ∈ text, skipped c = true := by
  rw [← spells.tokens_nil]
  have layout := spells.layout
  refine ⟨fun thrown => ?_, fun none => by rw [none]; rfl⟩
  cases layout with
  | nil => rfl
  | @cons t inner after n inside behind =>
      have one := (Layout.node inside).walk_append beyond step 0 s after
      rw [Nat.add_zero, List.cons_append] at one
      rw [one] at thrown
      refine absurd thrown (bind_ne_throw (foldlM_ne_throw each _ s) fun s => ?_)
      cases after <;> exact ret_ne_throw s

end

theorem setBulb_inside (set : Hue.Bulb → Hue.Bulb) (bulbs : List Hue.Bulb) :
    Hue.setBulb set bulbs ≠ .throw .beyond := by
  rw [Hue.setBulb]
  split
  · exact throw_ne_throw (by decide)
  · exact ret_ne_throw _

theorem read_inside (strings : Blocks (List Char)) (a : ℕ) : strings.read Hue.Fault.dangling a ≠ .throw .beyond := by
  rw [Blocks.read]
  split
  · exact ret_ne_throw _
  · exact throw_ne_throw (by decide)

theorem free_inside (strings : Blocks (List Char)) (a : ℕ) : strings.free Hue.Fault.dangling a ≠ .throw .beyond := by
  rw [Blocks.free]
  split
  · exact ret_ne_throw _
  · exact throw_ne_throw (by decide)

theorem store_inside (key : List Char) (val : ℕ) (bulbs : List Hue.Bulb) (strings : Blocks (List Char)) :
    Hue.store key val bulbs strings ≠ .throw .beyond := by
  rw [Hue.store]
  split
  · exact bind_ne_throw (setBulb_inside _ _) fun _ => ret_ne_throw _
  · exact bind_ne_throw (free_inside _ _) fun _ => ret_ne_throw _

theorem lights_inside (w : Hue.Walker) (t : Token) : Hue.step w t ≠ .throw .beyond := by
  rw [Hue.step]
  cases w.state with
  | start => exact ret_ne_throw _
  | resultObj => exact ret_ne_throw _
  | key =>
      dsimp only
      split
      · refine bind_ne_throw (read_inside _ _) fun _ => ?_
        refine bind_ne_throw (free_inside _ _) fun _ => ?_
        exact bind_ne_throw (setBulb_inside _ _) fun _ => ret_ne_throw _
      · split <;> exact ret_ne_throw _
  | value =>
      refine bind_ne_throw (read_inside _ _) fun _ => ?_
      refine bind_ne_throw (store_inside _ _ _ _) fun _ => ?_
      exact bind_ne_throw (free_inside _ _) fun _ => ret_ne_throw _
  | stop => exact ret_ne_throw _

section
variable {R : Type} {p : Enfuse.Parser R} {n : ℕ} {tokens : List Token} {text : List Char}

theorem records_inside (object : ∀ records, p.keyObject records ≠ .throw .beyond) (w : Enfuse.Walker R) (t : Token) :
    p.step w t ≠ .throw .beyond := by
  have value : ∀ key val records, p.store key val records ≠ .throw .beyond := by
    intro key val records
    rw [Enfuse.Parser.store]
    split
    · exact ret_ne_throw _
    · split
      · exact throw_ne_throw (by decide)
      · exact throw_ne_throw (by decide)
      · exact ret_ne_throw _
  rw [Enfuse.Parser.step]
  cases w.state with
  | start => exact ret_ne_throw _
  | arrayObj => exact ret_ne_throw _
  | key =>
      dsimp only
      split
      · exact bind_ne_throw (object _) fun _ => ret_ne_throw _
      · split
        · exact ret_ne_throw _
        · split
          · exact throw_ne_throw (by decide)
          · exact ret_ne_throw _
  | value => exact bind_ne_throw (value _ _ _) fun _ => ret_ne_throw _
  | stop => exact ret_ne_throw _

theorem parse_beyond_iff (spells : Spells n tokens text) (object : ∀ records, p.keyObject records ≠ .throw .beyond) :
    p.parse tokens = .throw .beyond ↔ ∀ c ∈ text, skipped c = true := by
  rw [← walk_beyond_iff spells (records_inside object) { records := p.records }, Enfuse.Parser.parse]
  cases walk Enfuse.Halt.beyond p.step 1 { records := p.records } tokens with
  | ret w =>
      dsimp only
      cases w.records <;> exact ⟨nofun, nofun⟩
  | throw halt =>
      cases halt with
      | null => exact ⟨nofun, nofun⟩
      | indeterminate => exact ⟨nofun, nofun⟩
      | beyond => exact ⟨fun _ => rfl, fun _ => rfl⟩
      | returnNull => exact ⟨nofun, nofun⟩
  | abort => exact ⟨nofun, nofun⟩
  | timeout => exact ⟨nofun, nofun⟩

end

/-- The parsers read a token that has not been written if and only if the reply is accepted without a value:
when it is empty or holds only blanks, colons and commas. -/
theorem beyond_iff_blank {D : Type} (c : Enfuse.Doubles D) (js : List Char) :
    ∃ r, Outcome.Reaches (jsonTokenize js) r ∧ ∀ tokens, r.map (List.map (token js)) = some tokens →
      (Hue.parseGetAllLights tokens = .throw .beyond ↔ ∀ c ∈ js, skipped c = true) ∧
      ((Enfuse.locationParser c).parse tokens = .throw .beyond ↔ ∀ c ∈ js, skipped c = true) ∧
      (Enfuse.branchParser.parse tokens = .throw .beyond ↔ ∀ c ∈ js, skipped c = true) ∧
      (Enfuse.panelParser.parse tokens = .throw .beyond ↔ ∀ c ∈ js, skipped c = true) ∧
      (Enfuse.statusParser.parse tokens = .throw .beyond ↔ ∀ c ∈ js, skipped c = true) ∧
      ((Enfuse.dataParser c).parse tokens = .throw .beyond ↔ ∀ c ∈ js, skipped c = true) := by
  obtain ⟨r, reaches, accepted⟩ := tokenize_accepts js
  refine ⟨r, reaches, fun tokens eq => ?_⟩
  obtain ⟨n, spells⟩ := (spelled_iff accepted tokens).mp eq
  refine ⟨?_, parse_beyond_iff spells fun records => ?_, parse_beyond_iff spells fun _ => ret_ne_throw _,
    parse_beyond_iff spells fun _ => ret_ne_throw _, parse_beyond_iff spells fun _ => ret_ne_throw _,
    parse_beyond_iff spells fun _ => ret_ne_throw _⟩
  · rw [← walk_beyond_iff spells lights_inside {}, Hue.parseGetAllLights]
    cases walk Hue.Fault.beyond Hue.step 1 {} tokens <;> exact ⟨fun h => by cases h <;> rfl, fun h => by cases h <;> rfl⟩
  · cases records with
    | none => exact throw_ne_throw (by decide)
    | some records =>
        cases records with
        | nil => exact throw_ne_throw (by decide)
        | cons => exact ret_ne_throw _

example : jsonTokenize " ,:".toList 8 = .ret (some []) ∧ Hue.parseGetAllLights [] = .throw .beyond := ⟨rfl, rfl⟩

section
variable {m n : ℕ} {ts us : List Token} {s t cs : List Char} {c : Char}

theorem Spells.append (first : Spells m ts s) (second : Spells n us t) (apart : Delimited t) :
    Spells (m + n) (ts ++ us) (s ++ t) := by
  induction first with
  | nil =>
      rw [Nat.zero_add]
      exact second
  | skip is _ ih => exact .skip is ih
  | string chars _ ih =>
      rw [Nat.succ_add, List.cons_append, List.cons_append, List.append_assoc]
      exact .string chars ih
  | @primitive n ts c cs text is word apart' _ ih =>
      rw [Nat.succ_add, List.cons_append, List.cons_append, List.append_assoc]
      refine .primitive is word ?_ ih
      cases text with
      | nil => exact apart
      | cons d text => exact apart'
  | node pair values _ _ ih =>
      rw [Nat.succ_add, List.cons_append, List.cons_append, List.append_assoc, List.append_assoc]
      exact .node pair values ih

theorem spells_blank (blank : JsonText.Blank t) : Spells 0 [] t := by
  induction t with
  | nil => exact .nil
  | cons c t ih =>
      obtain ⟨here, rest⟩ := List.forall_mem_cons.mp blank
      refine .skip ?_ (ih rest)
      rcases here with rfl | rfl | rfl | rfl <;> rfl

theorem delimited_blank (blank : JsonText.Blank t) : Delimited t := by
  rintro c eq
  rcases blank c (List.mem_of_head? eq) with rfl | rfl | rfl | rfl <;> rfl

theorem Spells.between {left right : List Char} (before : JsonText.Blank left) (spells : Spells n ts t)
    (after : JsonText.Blank right) : Spells n ts (left ++ (t ++ right)) := by
  have behind := spells.append (spells_blank after) (delimited_blank after)
  rw [List.append_nil] at behind
  clear spells
  induction left with
  | nil => exact behind
  | cons c left ih =>
      obtain ⟨here, rest⟩ := List.forall_mem_cons.mp before
      refine .skip ?_ (ih rest)
      rcases here with rfl | rfl | rfl | rfl <;> rfl

theorem quoted_of_chars (chars : JsonText.Chars cs) : Quoted cs := by
  induction chars with
  | nil => exact .nil
  | plain printable quote backslash _ ih => exact .char quote backslash ih
  | @escape c rest known _ ih =>
      refine .escape ?_ ih
      have all : ∀ c ∈ "\"\\/bfnrt".toList, escapable c = true := List.all_eq_true.mp (by decide)
      exact all c known
  | @unicode hex rest four digits _ ih =>
      refine .escape rfl ?_
      clear four
      induction hex with
      | nil => exact ih
      | cons d hex more =>
          obtain ⟨here, others⟩ := List.forall_mem_cons.mp digits
          have quote : d ≠ '"' := fun eq => absurd (eq ▸ here) (by decide)
          have backslash : d ≠ '\\' := fun eq => absurd (eq ▸ here) (by decide)
          exact .char quote backslash (more others)

def letters : List Char := "-+.eEnultrfas".toList

/-- Stands in a number or in one of the three words. -/
def lettered (c : Char) : Bool := c.isDigit || letters.contains c

theorem inWord_of_lettered (is : lettered c = true) : inWord c ∧ plain c := by
  have other : ∀ d, lettered d = false → c ≠ d := by
    rintro d no rfl
    rw [is] at no
    cases no
  have outside : ∀ l : List Char, l.any lettered = false → l.contains c = false := by
    intro l none
    rw [List.contains_eq_mem, decide_eq_false_iff_not]
    exact fun mem => Bool.false_ne_true (none.symm.trans (List.any_eq_true.mpr ⟨c, mem, is⟩))
  refine ⟨⟨outside _ (by decide), ?_⟩, other _ rfl, other _ rfl, other _ rfl, other _ rfl, other _ rfl,
    outside _ (by decide)⟩
  rcases Bool.or_eq_true_iff.mp is with digit | letter
  · obtain ⟨low, high⟩ := Bool.and_eq_true_iff.mp digit
    exact ⟨Nat.le_trans (by decide) (UInt32.le_iff_toNat_le.mp (of_decide_eq_true low)),
      Nat.lt_of_le_of_lt (UInt32.le_iff_toNat_le.mp (of_decide_eq_true high)) (by decide)⟩
  · have all : (letters.all fun d => decide (32 ≤ d.toNat ∧ d.toNat < 127)) = true := by decide
    exact of_decide_eq_true (List.all_eq_true.mp all c (List.contains_iff_mem.mp letter))

theorem spells_word (some : t ≠ []) (word : t.all lettered = true) : Spells 1 [⟨.primitive, t, 0⟩] t := by
  rw [List.all_eq_true] at word
  cases t with
  | nil => exact absurd rfl some
  | cons c cs =>
      have one := Spells.primitive (inWord_of_lettered (word c List.mem_cons_self)).2
        (fun d mem => (inWord_of_lettered (word d mem)).1) delimited_nil .nil
      rwa [List.append_nil] at one

theorem lettered_digits (digits : JsonText.Digits t) : t.all lettered = true :=
  List.all_eq_true.mpr fun c mem => by
    have is := digits.2 c mem
    simp [lettered, is]

theorem spells_number (number : JsonText.Number t) : Spells 1 [⟨.primitive, t, 0⟩] t := by
  obtain ⟨sign, whole, fraction, exponent, rfl, isSign, isWhole, isFraction, isExponent⟩ := number
  refine spells_word ?_ ?_
  · rcases isWhole with rfl | ⟨d, ds, rfl, -⟩ <;> simp
  · rw [List.all_append, List.all_append, List.all_append, Bool.and_eq_true, Bool.and_eq_true, Bool.and_eq_true]
    refine ⟨?_, ?_, ?_, ?_⟩
    · rcases isSign with rfl | rfl <;> rfl
    · rcases isWhole with rfl | ⟨d, ds, rfl, -, digits⟩
      · rfl
      · exact lettered_digits digits
    · rcases isFraction with rfl | ⟨ds, rfl, digits⟩
      · rfl
      · rw [List.all_cons, lettered_digits digits]
        rfl
    · rcases isExponent with rfl | ⟨e, sign, ds, rfl, isE, isSign, digits⟩
      · rfl
      · rw [List.all_cons, List.all_append, lettered_digits digits]
        rcases isE with rfl | rfl <;> rcases isSign with rfl | rfl | rfl <;> rfl

theorem array_brackets : brackets .array = some ('[', ']') := rfl

theorem object_brackets : brackets .object = some ('\x7b', '\x7d') := rfl

/-- The first token is the value, a string without its quotes. -/
def Heads (ts : List Token) (t : List Char) : Prop :=
  ∃ head rest, ts = head :: rest ∧ (head.text = t ∨ head.kind = .string ∧ '"' :: (head.text ++ ['"']) = t)

theorem spells_of_json {part : JsonText.Part} (json : JsonText part t) :
    ∃ n ts, Spells n ts t ∧ (part = .value → n = 1 ∧ Heads ts t) := by
  have comma : ∀ t, Delimited (',' :: t) := fun t c eq => by cases eq; rfl
  induction json with
  | null => exact ⟨1, _, spells_word (by decide) (by decide), fun _ => ⟨rfl, _, _, rfl, .inl rfl⟩⟩
  | true => exact ⟨1, _, spells_word (by decide) (by decide), fun _ => ⟨rfl, _, _, rfl, .inl rfl⟩⟩
  | false => exact ⟨1, _, spells_word (by decide) (by decide), fun _ => ⟨rfl, _, _, rfl, .inl rfl⟩⟩
  | number is => exact ⟨1, _, spells_number is, fun _ => ⟨rfl, _, _, rfl, .inl rfl⟩⟩
  | string chars => exact ⟨1, _, .string (quoted_of_chars chars) .nil, fun _ => ⟨rfl, _, _, rfl, .inr ⟨rfl, rfl⟩⟩⟩
  | emptyArray is =>
      exact ⟨1, _, .node array_brackets (spells_blank is) .nil, fun _ => ⟨rfl, _, _, rfl, .inl rfl⟩⟩
  | array _ ih =>
      obtain ⟨n, ts, spells, -⟩ := ih
      exact ⟨1, _, .node array_brackets spells .nil, fun _ => ⟨rfl, _, _, rfl, .inl rfl⟩⟩
  | emptyObject is =>
      exact ⟨1, _, .node object_brackets (spells_blank is) .nil, fun _ => ⟨rfl, _, _, rfl, .inl rfl⟩⟩
  | object _ ih =>
      obtain ⟨n, ts, spells, -⟩ := ih
      exact ⟨1, _, .node object_brackets spells .nil, fun _ => ⟨rfl, _, _, rfl, .inl rfl⟩⟩
  | element before _ after ih =>
      obtain ⟨n, ts, spells, -⟩ := ih
      exact ⟨n, ts, spells.between before after, nofun⟩
  | elements _ _ ih ih' =>
      obtain ⟨m, ts, first, -⟩ := ih
      obtain ⟨n, us, rest, -⟩ := ih'
      exact ⟨m + n, ts ++ us, first.append (.skip rfl rest) (comma _), nofun⟩
  | @member left key middle inner t right before chars colon space _ after ih =>
      obtain ⟨n, ts, spells, -⟩ := ih
      have none : JsonText.Blank [] := by decide
      have value := spells.between space after
      have behind := (Spells.skip (c := ':') rfl value).between colon none
      rw [List.append_nil] at behind
      have whole := (Spells.string (quoted_of_chars chars) behind).between before none
      rw [List.append_nil] at whole
      exact ⟨n + 1, _, whole, nofun⟩
  | members _ _ ih ih' =>
      obtain ⟨m, ts, first, -⟩ := ih
      obtain ⟨n, us, rest, -⟩ := ih'
      exact ⟨m + n, ts ++ us, first.append (.skip rfl rest) (comma _), nofun⟩

end

/-- Every JSON text is tokenized, with blanks around it or not, its first token is the text, and a walk reads
each of its tokens once. -/
theorem json_walked {before t after : List Char} (left : JsonText.Blank before) (json : JsonText .value t)
    (right : JsonText.Blank after) : ∃ ts, Outcome.Reaches (jsonTokenize (before ++ (t ++ after))) (some ts) ∧
      Heads (ts.map (token (before ++ (t ++ after)))) t ∧
      ∀ (ε σ : Type) (beyond : ε) (step : σ → Token → Outcome ε σ) (s : σ),
        walk beyond step 1 s (ts.map (token (before ++ (t ++ after)))) =
          (ts.map (token (before ++ (t ++ after)))).foldlM step s := by
  obtain ⟨n, tokens, spells, one⟩ := spells_of_json json
  obtain ⟨rfl, heads⟩ := one rfl
  have whole := spells.between left right
  obtain ⟨r, reaches, accepted⟩ := tokenize_accepts (before ++ (t ++ after))
  obtain ⟨ts, rfl, rfl⟩ := Option.map_eq_some_iff.mp ((spelled_iff accepted tokens).mpr ⟨1, whole⟩)
  exact ⟨ts, reaches, heads, fun ε σ beyond step s => whole.layout.walk_eq beyond step s⟩

def nested : List Char := "\x7b\"on\" : [ true, [\n] ]\x7d".toList

theorem json_nested : JsonText .value nested :=
  have key : JsonText.Chars "on".toList :=
    .plain (by decide) (by decide) (by decide) (.plain (by decide) (by decide) (by decide) .nil)
  have inner : JsonText .value "[\n]".toList := .emptyArray (by decide : JsonText.Blank ['\n'])
  have array : JsonText .value "[ true, [\n] ]".toList :=
    .array (.elements (.element (by decide : JsonText.Blank [' ']) .true (by decide : JsonText.Blank []))
      (.element (by decide : JsonText.Blank [' ']) inner (by decide : JsonText.Blank [' '])))
  .object (.member (by decide : JsonText.Blank []) key (by decide : JsonText.Blank [' '])
    (by decide : JsonText.Blank [' ']) array (by decide : JsonText.Blank []))

theorem nested_walked : ∃ ts, Outcome.Reaches (jsonTokenize ([' '] ++ (nested ++ ['\n']))) (some ts) ∧
    Heads (ts.map (token ([' '] ++ (nested ++ ['\n'])))) nested ∧
    ∀ (ε σ : Type) (beyond : ε) (step : σ → Token → Outcome ε σ) (s : σ),
      walk beyond step 1 s (ts.map (token ([' '] ++ (nested ++ ['\n'])))) =
        (ts.map (token ([' '] ++ (nested ++ ['\n'])))).foldlM step s :=
  json_walked (by decide) json_nested (by decide)

end Mio.Adapters.Replies
