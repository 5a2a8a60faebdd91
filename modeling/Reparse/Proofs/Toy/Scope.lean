import Reparse.Proofs.Toy.Lexing
import Reparse.Proofs.Toy.Words

/-!
# Expressions with their names in scope

What every parsed tree satisfies as an expression: a variable was assigned
before it in the order of the text, no sequence has a single item, and an
integer is the negation of another.  The words of such an expression read as
itself.
-/

namespace Reparse.Toy

open Text

/-- The words that are no names. -/
def reservedWords : List String :=
  ["nil", "true", "false", "__LINE__", "__FILE__"]

namespace Expr

mutual

/-- After the names in `locals` have been assigned, the expression is one that
a parser may have read. -/
def Scoped (locals : List String) : Expr → Prop
  | int value => value ≠ Int64.minValue
  | sym name => isSymbol name = true
  | var name => isName name = true ∧ name ∈ locals
  | assign name value => isName name = true ∧ value.Scoped (name :: locals)
  | sequence items => items.length ≠ 1 ∧ ScopedList locals items
  | negate operand => operand.Scoped locals
  | infixed left _ right =>
      left.Scoped locals ∧ right.Scoped (left.assigned ++ locals)
  | call name args => isName name = true ∧ ScopedList locals args
  | foreign node =>
      ∃ name ∈ reservedWords, ∃ span, node = .mk "sym" [.atom (.sym name)] span
  | _ => True

def ScopedList (locals : List String) : List Expr → Prop
  | [] => True
  | e :: es => e.Scoped locals ∧ ScopedList (e.assigned ++ locals) es

end

mutual

/-- An expression in scope is the one that its words read as. -/
theorem resolve_of_scoped : ∀ {e : Expr} {locals : List String},
    e.Scoped locals → e.resolve locals = e
  | var name, locals, hscoped => by
      rw [resolve, if_pos hscoped.2]
  | assign name value, locals, hscoped => by
      rw [resolve, resolve_of_scoped hscoped.2]
  | sequence items, locals, hscoped => by
      rw [resolve, resolveList_of_scoped hscoped.2]
      match items, hscoped.1 with
      | [], _ => rfl
      | _ :: _ :: _, _ => rfl
  | negate operand, locals, hscoped => by
      rw [resolve, resolve_of_scoped (e := operand) hscoped]
  | infixed left op right, locals, hscoped => by
      rw [resolve, resolve_of_scoped hscoped.1, resolve_of_scoped hscoped.2]
  | call name args, locals, hscoped => by
      rw [resolve, resolveList_of_scoped hscoped.2]
  | int _, _, _ | float _, _, _ | str _, _, _ | bytes _, _, _ | sym _, _, _
  | nil, _, _
  | bool _, _, _ | foreign _, _, _ => rfl

theorem resolveList_of_scoped : ∀ {es : List Expr} {locals : List String},
    ScopedList locals es → resolveList locals es = es
  | [], _, _ => rfl
  | e :: es, locals, hscoped => by
      rw [resolveList, resolve_of_scoped hscoped.1,
        resolveList_of_scoped hscoped.2]

end

end Expr

/-! ## Names -/

theorem not_mem_reservedWords_of_isName {name : String}
    (hname : isName name = true) :
    name ∉ reservedWords := by
  intro hmem
  simp only [reservedWords, List.mem_cons, List.not_mem_nil, or_false] at hmem
  rcases hmem with rfl | rfl | rfl | rfl | rfl <;>
    exact absurd hname (by decide)

theorem isSymbol_of_mem_reservedWords {name : String}
    (hname : name ∈ reservedWords) :
    isSymbol name = false := by
  simp only [reservedWords, List.mem_cons, List.not_mem_nil, or_false] at hname
  rcases hname with rfl | rfl | rfl | rfl | rfl <;> decide

/-- A word is a name unless it is reserved. -/
theorem wordToken_of_not_mem {c : Char} {s : List Char}
    (hword : String.ofList (c :: s) ∉ reservedWords) :
    wordToken (c :: s) = .ident (String.ofList (c :: s)) := by
  unfold wordToken
  split <;> simp_all [reservedWords]

theorem wordToken_ne_ident {c : Char} {s : List Char}
    (hword : String.ofList (c :: s) ∈ reservedWords) (name : String) :
    wordToken (c :: s) ≠ .ident name := by
  unfold wordToken
  simp only [reservedWords, List.mem_cons, List.not_mem_nil, or_false] at hword
  rcases hword with heq | heq | heq | heq | heq <;> simp [heq]

theorem isName_ofList {c : Char} {s : List Char} (hc : isWordStart c = true)
    (hs : s.all isWordChar = true)
    (hword : String.ofList (c :: s) ∉ reservedWords) :
    isName (String.ofList (c :: s)) = true := by
  unfold isName
  rw [String.toList_ofList]
  simp [hc, hs, wordToken_of_not_mem hword]

end Reparse.Toy
