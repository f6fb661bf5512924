import Mio.Lib.Latest
import Mio.Lib.Outcome

/-! Tokens of a JSON text: those of a value stand in pre-order, and the size of an array or an object says
how many values follow inside it, keys among them. -/
namespace Mio.Tokens

inductive Kind where
  | primitive
  | object
  | array
  | string
deriving DecidableEq

structure Token where
  kind : Kind
  text : List Char
  size : ℕ

/-- How many values follow inside. -/
def Token.inside (t : Token) : ℕ :=
  match t.kind with
  | .object | .array => t.size
  | .primitive | .string => 0

def Token.Scalar (t : Token) : Prop := t.kind ≠ .object ∧ t.kind ≠ .array

theorem Token.Scalar.inside {t : Token} (scalar : t.Scalar) : t.inside = 0 := by
  obtain ⟨object, array⟩ := scalar
  unfold Token.inside
  split
  · next is => exact absurd is object
  · next is => exact absurd is array
  · rfl
  · rfl

/-- So many values one behind the other. -/
inductive Layout : ℕ → List Token → Prop
  | nil : Layout 0 []
  | cons {t : Token} {inner after : List Token} {n : ℕ} :
      Layout t.inside inner → Layout n after → Layout (n + 1) (t :: (inner ++ after))

section Layout

variable {t : Token} {ts us : List Token} {m n : ℕ}

theorem Layout.append (first : Layout m ts) (second : Layout n us) : Layout (m + n) (ts ++ us) := by
  induction first with
  | nil => rwa [Nat.zero_add]
  | cons inner after _ ih =>
      rw [Nat.succ_add, List.cons_append, List.append_assoc]
      exact .cons inner ih

theorem Layout.leaf (empty : t.inside = 0) (rest : Layout n ts) : Layout (n + 1) (t :: ts) := by
  have inner : Layout t.inside [] := by
    rw [empty]
    exact .nil
  exact .cons inner rest

theorem Layout.node (inner : Layout t.inside ts) : Layout 1 (t :: ts) := by
  have whole := Layout.cons inner .nil
  rwa [List.append_nil] at whole

theorem Layout.flatMap {α : Type} (l : List α) (tokens : α → List Token) (each : ∀ a, Layout n (tokens a)) :
    Layout (n * l.length) (l.flatMap tokens) := by
  induction l with
  | nil => exact .nil
  | cons a l ih =>
      rw [List.length_cons, Nat.mul_succ, Nat.add_comm, List.flatMap_cons]
      exact (each a).append ih

end Layout

section Walk

variable {ε σ : Type} (beyond : ε) (step : σ → Token → Outcome ε σ)

/-- The loop that counts in `j` the values which are still to come; behind the last token there is nothing
to read. -/
def walk : ℕ → σ → List Token → Outcome ε σ
  | 0, s, _ => .ret s
  | _ + 1, _, [] => .throw beyond
  | j + 1, s, t :: ts => do
      let s ← step s t
      walk (j + t.inside) s ts

/-- As many values as are counted are walked over, each of their tokens once. -/
theorem Layout.walk_append {n : ℕ} {ts : List Token} (layout : Layout n ts) (j : ℕ) (s : σ) (rest : List Token) :
    walk beyond step (n + j) s (ts ++ rest) =
      ts.foldlM step s >>= fun s => walk beyond step j s rest := by
  induction layout generalizing j s rest with
  | nil => rw [Nat.zero_add]; rfl
  | @cons t inner after n _ _ inside behind =>
      rw [Nat.succ_add, List.cons_append, List.append_assoc, walk, List.foldlM_cons, bind_assoc]
      congr 1
      funext s
      rw [Nat.add_comm (n + j), inside, List.foldlM_append, bind_assoc]
      congr 1
      funext s
      exact behind j s rest

/-- The walk over one value ends with its last token. -/
theorem Layout.walk_eq {ts : List Token} (layout : Layout 1 ts) (s : σ) :
    walk beyond step 1 s ts = ts.foldlM step s := by
  have whole := layout.walk_append beyond step 0 s []
  rw [List.append_nil] at whole
  refine whole.trans ?_
  cases ts.foldlM step s <;> rfl

end Walk

/-- A key and a value that holds no others. -/
structure Field where
  key : List Char
  quoted : Bool
  value : List Char

namespace Field

def keyToken (f : Field) : Token := ⟨.string, f.key, 0⟩

def valueToken (f : Field) : Token := ⟨if f.quoted then .string else .primitive, f.value, 0⟩

def tokens (f : Field) : List Token := [f.keyToken, f.valueToken]

theorem keyToken_scalar (f : Field) : f.keyToken.Scalar := ⟨nofun, nofun⟩

theorem valueToken_scalar (f : Field) : f.valueToken.Scalar := by
  unfold valueToken
  cases f.quoted <;> exact ⟨nofun, nofun⟩

end Field

/-- An object with its text. -/
structure Flat where
  text : List Char
  fields : List Field

namespace Flat

def tokens (o : Flat) : List Token :=
  ⟨.object, o.text, 2 * o.fields.length⟩ :: o.fields.flatMap Field.tokens

def history (o : Flat) : List (List Char × List Char) := o.fields.map fun f => (f.key, f.value)

def get (o : Flat) : List Char → Option (List Char) := latest o.history

end Flat

theorem Field.layout (f : Field) : Layout 2 f.tokens :=
  .leaf f.keyToken_scalar.inside (.leaf f.valueToken_scalar.inside .nil)

theorem Flat.layout (o : Flat) : Layout 1 o.tokens :=
  .node (.flatMap o.fields Field.tokens Field.layout)

/-- An array of flat objects. -/
def arrayTokens (text : List Char) (os : List Flat) : List Token :=
  ⟨.array, text, os.length⟩ :: os.flatMap Flat.tokens

theorem array_layout (text : List Char) (os : List Flat) : Layout 1 (arrayTokens text os) := by
  have inner := Layout.flatMap os Flat.tokens Flat.layout
  rw [Nat.one_mul] at inner
  exact .node inner

end Mio.Tokens
