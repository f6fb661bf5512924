import Mathlib.Data.List.Basic
import Mathlib.Tactic.Common

/-! The grammar of JSON texts. -/
namespace Mio.JsonText

def Digits (t : List Char) : Prop := t ≠ [] ∧ ∀ c ∈ t, c.isDigit

/-- No leading zero. -/
def Whole (t : List Char) : Prop := t = ['0'] ∨ ∃ d ds, t = d :: ds ∧ d ≠ '0' ∧ Digits t

def Fraction (t : List Char) : Prop := t = [] ∨ ∃ ds, t = '.' :: ds ∧ Digits ds

def Exponent (t : List Char) : Prop :=
  t = [] ∨ ∃ e sign ds, t = e :: (sign ++ ds) ∧ (e = 'e' ∨ e = 'E') ∧
    (sign = [] ∨ sign = ['+'] ∨ sign = ['-']) ∧ Digits ds

def Number (t : List Char) : Prop :=
  ∃ sign whole fraction exponent, t = sign ++ (whole ++ (fraction ++ exponent)) ∧
    (sign = [] ∨ sign = ['-']) ∧ Whole whole ∧ Fraction fraction ∧ Exponent exponent

def Blank (t : List Char) : Prop := ∀ c ∈ t, c = ' ' ∨ c = '\t' ∨ c = '\n' ∨ c = '\r'

instance (t : List Char) : Decidable (Blank t) :=
  List.decidableBAll (fun c : Char => c = ' ' ∨ c = '\t' ∨ c = '\n' ∨ c = '\r') t

/-- The inside of a string. -/
inductive Chars : List Char → Prop
  | nil : Chars []
  | plain {c : Char} {rest : List Char} (printable : 32 ≤ c.toNat) (quote : c ≠ '"')
      (backslash : c ≠ '\\') (more : Chars rest) : Chars (c :: rest)
  | escape {c : Char} {rest : List Char} (known : c ∈ "\"\\/bfnrt".toList) (more : Chars rest) :
      Chars ('\\' :: c :: rest)
  | unicode {hex rest : List Char} (four : hex.length = 4)
      (digits : ∀ c ∈ hex, c ∈ "0123456789abcdefABCDEF".toList) (more : Chars rest) :
      Chars ('\\' :: 'u' :: (hex ++ rest))

inductive Part where
  | value
  | elements
  | members

end Mio.JsonText

namespace Mio
open JsonText

/-- A value, the elements of an array, or the members of an object. -/
inductive JsonText : JsonText.Part → List Char → Prop
  | null : JsonText .value "null".toList
  | true : JsonText .value "true".toList
  | false : JsonText .value "false".toList
  | number {t : List Char} (is : Number t) : JsonText .value t
  | string {cs : List Char} (chars : Chars cs) : JsonText .value ('"' :: (cs ++ ['"']))
  | emptyArray {blank : List Char} (is : Blank blank) : JsonText .value ('[' :: (blank ++ [']']))
  | array {t : List Char} (inside : JsonText .elements t) : JsonText .value ('[' :: (t ++ [']']))
  | emptyObject {blank : List Char} (is : Blank blank) :
      JsonText .value ('\x7b' :: (blank ++ ['\x7d']))
  | object {t : List Char} (inside : JsonText .members t) :
      JsonText .value ('\x7b' :: (t ++ ['\x7d']))
  | element {left t right : List Char} (before : Blank left) (value : JsonText .value t)
      (after : Blank right) : JsonText .elements (left ++ (t ++ right))
  | elements {first rest : List Char} (one : JsonText .elements first)
      (more : JsonText .elements rest) : JsonText .elements (first ++ ',' :: rest)
  | member {left key middle inner t right : List Char} (before : Blank left) (chars : Chars key)
      (colon : Blank middle) (space : Blank inner) (value : JsonText .value t) (after : Blank right) :
      JsonText .members (left ++ '"' :: (key ++ '"' :: (middle ++ ':' :: (inner ++ (t ++ right)))))
  | members {first rest : List Char} (one : JsonText .members first)
      (more : JsonText .members rest) : JsonText .members (first ++ ',' :: rest)

namespace JsonText

/-- Behind every dot stands a digit. -/
def Dotted (t : List Char) : Prop := ∀ a b, t = a ++ '.' :: b → ∃ d ds, b = d :: ds ∧ d.isDigit

theorem dotted_of_notMem {t : List Char} (none : '.' ∉ t) : Dotted t := by
  rintro a b rfl
  exact (none (by simp)).elim

theorem Dotted.append {s t : List Char} (first : Dotted s) (second : Dotted t) : Dotted (s ++ t) := by
  intro a b split
  rcases List.append_eq_append_iff.mp split with ⟨more, rfl, rest⟩ | ⟨more, rfl, rest⟩
  · exact second more b rest
  · cases more with
    | nil => exact second [] b rest.symm
    | cons c more =>
        obtain ⟨rfl, rfl⟩ := List.cons.inj rest
        obtain ⟨d, ds, rfl, digit⟩ := first a more rfl
        exact ⟨d, ds ++ t, rfl, digit⟩

theorem Dotted.cons {c : Char} {t : List Char} (other : c ≠ '.') (rest : Dotted t) : Dotted (c :: t) :=
  (dotted_of_notMem (t := [c]) (by simpa using other.symm)).append rest

theorem Blank.dotted {t : List Char} (blank : Blank t) : Dotted t :=
  dotted_of_notMem fun mem => by
    rcases blank '.' mem with no | no | no | no <;> cases no

theorem Digits.notMem_dot {t : List Char} (digits : Digits t) : '.' ∉ t := fun mem => by
  have := digits.2 '.' mem
  exact absurd this (by decide)

theorem Number.dotted {t : List Char} (number : Number t) : Dotted t := by
  obtain ⟨sign, whole, fraction, exponent, rfl, isSign, isWhole, isFraction, isExponent⟩ := number
  refine Dotted.append ?_ (Dotted.append ?_ (Dotted.append ?_ ?_))
  · rcases isSign with rfl | rfl <;> exact dotted_of_notMem (by decide)
  · rcases isWhole with rfl | ⟨d, ds, rfl, -, digits⟩
    · exact dotted_of_notMem (by decide)
    · exact dotted_of_notMem digits.notMem_dot
  · rcases isFraction with rfl | ⟨ds, rfl, digits⟩
    · exact dotted_of_notMem (by decide)
    · intro a b split
      cases a with
      | nil =>
          obtain ⟨-, rfl⟩ := List.cons.inj split
          obtain ⟨d, rest, rfl⟩ := List.exists_cons_of_ne_nil digits.1
          exact ⟨d, rest, rfl, digits.2 d List.mem_cons_self⟩
      | cons c a =>
          obtain ⟨-, rfl⟩ := List.cons.inj split
          exact (digits.notMem_dot (by simp)).elim
  · rcases isExponent with rfl | ⟨e, sign, ds, rfl, isE, isSign, digits⟩
    · exact dotted_of_notMem (by decide)
    · refine dotted_of_notMem fun mem => ?_
      rcases List.mem_cons.mp mem with rfl | mem
      · rcases isE with no | no <;> cases no
      · rcases List.mem_append.mp mem with mem | mem
        · rcases isSign with rfl | rfl | rfl <;> exact absurd mem (by decide)
        · exact digits.notMem_dot mem

/-- In a text without strings a dot belongs to a number. -/
theorem dotted {part : Part} {t : List Char} (text : JsonText part t) (plain : '"' ∉ t) : Dotted t := by
  induction text with
  | null => exact dotted_of_notMem (by decide)
  | true => exact dotted_of_notMem (by decide)
  | false => exact dotted_of_notMem (by decide)
  | number is => exact is.dotted
  | string => exact (plain List.mem_cons_self).elim
  | emptyArray is => exact (is.dotted.append (dotted_of_notMem (by decide))).cons (by decide)
  | array inside ih =>
      refine ((ih ?_).append (dotted_of_notMem (by decide))).cons (by decide)
      exact fun mem => plain (List.mem_cons_of_mem _ (List.mem_append_left _ mem))
  | emptyObject is => exact (is.dotted.append (dotted_of_notMem (by decide))).cons (by decide)
  | object inside ih =>
      refine ((ih ?_).append (dotted_of_notMem (by decide))).cons (by decide)
      exact fun mem => plain (List.mem_cons_of_mem _ (List.mem_append_left _ mem))
  | element before value after ih =>
      refine before.dotted.append ((ih ?_).append after.dotted)
      exact fun mem => plain (List.mem_append_right _ (List.mem_append_left _ mem))
  | elements one more ih ih' =>
      refine (ih fun mem => plain (List.mem_append_left _ mem)).append (.cons (by decide) (ih' ?_))
      exact fun mem => plain (List.mem_append_right _ (List.mem_cons_of_mem _ mem))
  | member => exact (plain (List.mem_append_right _ List.mem_cons_self)).elim
  | members one more ih ih' =>
      refine (ih fun mem => plain (List.mem_append_left _ mem)).append (.cons (by decide) (ih' ?_))
      exact fun mem => plain (List.mem_append_right _ (List.mem_cons_of_mem _ mem))

end JsonText
end Mio
