import Reparse.Proofs.Toy.Literals

/-!
# The characters of a printed text

A printed text is made of ASCII and of the texts that its tree holds, so that
only a text of the tree can be outside the encoding of its source.
-/

namespace Reparse.Toy

open Text

theorem forall_mem_intercalate {α : Type} {P : α → Prop} {sep : List α}
    {lists : List (List α)} (hsep : ∀ a ∈ sep, P a)
    (hlists : ∀ list ∈ lists, ∀ a ∈ list, P a) :
    ∀ a ∈ sep.intercalate lists, P a := by
  induction lists with
  | nil => simp
  | cons list lists ih =>
      have hlist := hlists list List.mem_cons_self
      have hrest := ih fun more hmore =>
        hlists more (List.mem_cons_of_mem list hmore)
      cases lists with
      | nil => simpa using hlist
      | cons next lists =>
          rw [List.intercalate_cons_cons]
          simp only [List.forall_mem_append]
          exact ⟨⟨hlist, hsep⟩, hrest⟩

/-- Every character is ASCII or belongs to one of the texts. -/
def Covered (texts : List String) (s : List Char) : Prop :=
  ∀ c ∈ s, c.toNat < 0x80 ∨ ∃ text ∈ texts, c ∈ text.toList

section Covered

variable {texts more : List String} {s t : List Char} {c : Char}

theorem covered_of_forall (hs : ∀ c ∈ s, c.toNat < 0x80) : Covered texts s :=
  fun c hc => .inl (hs c hc)

def isAscii (c : Char) : Bool :=
  c.toNat < 0x80

theorem covered_of_ascii (hs : s.all isAscii = true) : Covered texts s :=
  covered_of_forall fun c hc => of_decide_eq_true (List.all_eq_true.mp hs c hc)

theorem Covered.append (hs : Covered texts s) (ht : Covered texts t) :
    Covered texts (s ++ t) := by
  intro c hc
  rcases List.mem_append.mp hc with hc | hc
  · exact hs c hc
  · exact ht c hc

theorem Covered.cons (hc : c.toNat < 0x80) (hs : Covered texts s) :
    Covered texts (c :: s) := by
  intro d hd
  rcases List.mem_cons.mp hd with rfl | hd
  · exact .inl hc
  · exact hs d hd

theorem Covered.nil : Covered texts [] := by
  simp [Covered]

theorem Covered.mono (hs : Covered texts s) (hsubset : texts ⊆ more) :
    Covered more s := by
  intro c hc
  rcases hs c hc with hlow | ⟨text, htext, hmem⟩
  · exact .inl hlow
  · exact .inr ⟨text, hsubset htext, hmem⟩

theorem Covered.parenthesize (hs : Covered texts s) :
    Covered texts (parenthesize s) :=
  .cons (by decide) (hs.append (.cons (by decide) .nil))

theorem covered_decimal (n : Nat) : Covered texts (decimal n) := by
  refine covered_of_forall fun c hc => ?_
  have hbounds := isDigit_toNat (isDigit_of_mem_decimal hc)
  omega

theorem covered_isWordChar (hs : ∀ c ∈ s, isWordChar c = true) :
    Covered texts s := by
  refine covered_of_forall fun c hc => ?_
  have hbounds := isWordChar_toNat (hs c hc)
  omega

theorem isWordChar_of_isWordStart (hc : isWordStart c = true) :
    isWordChar c = true := by
  unfold isWordStart at hc
  unfold isWordChar
  simp_all [Bool.or_assoc]
  tauto

theorem covered_name {name : String} (hname : isName name = true) :
    Covered texts name.toList := by
  obtain ⟨d, s, htext, hd, hs, -⟩ := isName_cases hname
  rw [htext]
  refine covered_isWordChar fun c hc => ?_
  rcases List.mem_cons.mp hc with rfl | hc
  · exact isWordChar_of_isWordStart hd
  · exact List.all_eq_true.mp hs c hc

theorem covered_symbol {name : String} (hsymbol : isSymbol name = true) :
    Covered texts name.toList := by
  rcases isSymbol_cases hsymbol with hname | hoperator
  · exact covered_name hname
  · refine covered_of_ascii ?_
    simp only [List.mem_cons, List.not_mem_nil, or_false] at hoperator
    rcases hoperator with rfl | rfl | rfl | rfl | rfl <;> decide

theorem covered_digits (hs : IsDigits s) : Covered texts s := by
  refine covered_of_forall fun c hc => ?_
  have hbounds := isDigit_toNat (hs.2 c hc)
  omega

theorem covered_fraction (hs : IsFraction s) : Covered texts s := by
  rcases hs with rfl | ⟨ds, hds, rfl⟩
  · exact .nil
  · exact .cons (by decide) (covered_digits hds)

theorem covered_exponent (hs : IsExponent s) : Covered texts s := by
  rcases hs with rfl | ⟨ds, hds, rfl | rfl⟩
  · exact .nil
  · exact .cons (by decide) (covered_digits hds)
  · exact .cons (by decide) (.cons (by decide) (covered_digits hds))

theorem covered_literal {x : Binary64} (hfinite : x.isFinite = true) :
    Covered texts x.literal := by
  obtain ⟨whole, fraction, exponent, htext, hwhole, hfraction,
    hexponent, -, -⟩ :=
    Binary64.exists_parts literalLayout rfl hfinite
  have hbody : Covered texts (x.writeMagnitude literalLayout) := by
    rw [htext]
    exact ((covered_digits hwhole).append (covered_fraction hfraction)).append
      (covered_exponent hexponent)
  unfold Binary64.literal
  rw [Binary64.write_of_isFinite hfinite]
  split
  · exact .cons (by decide) hbody
  · exact hbody

theorem ascii_codePointEscape (c : Char) :
    (codePointEscape c).all isAscii = true := by
  apply List.all_eq_true.mpr
  intro d hd
  simp only [codePointEscape, List.cons_append, List.mem_cons, List.mem_append,
    List.not_mem_nil, or_false] at hd
  rcases hd with rfl | rfl | rfl | hd | rfl
  · rfl
  · rfl
  · rfl
  · exact decide_eq_true (hex_ne hd).2.2
  · rfl

/-- A character of a string literal stands for itself or is escaped in
ASCII. -/
theorem literalChar_cases (c : Char) :
    literalChar c = [c] ∨ (literalChar c).all isAscii = true := by
  unfold literalChar escapeChar
  split
  · exact .inr rfl
  split
  · next hquote =>
      rcases hquote with rfl | rfl
      · exact .inr rfl
      · exact .inr rfl
  split
  · exact .inr rfl
  split
  · exact .inr rfl
  split
  · exact .inr rfl
  split
  · exact .inr (ascii_codePointEscape c)
  · exact .inl rfl

theorem covered_stringLiteral (text : String) :
    Covered [text] (stringLiteral text.toList) := by
  refine .cons (by decide) (.append ?_ (.cons (by decide) .nil))
  intro c hc
  obtain ⟨d, hd, hc⟩ := List.mem_flatMap.mp hc
  rcases literalChar_cases d with hself | hascii
  · rw [hself, List.mem_singleton] at hc
    exact .inr ⟨text, by simp, hc ▸ hd⟩
  · exact covered_of_ascii hascii c hc

theorem Covered.intercalate {sep : List Char} {lists : List (List Char)}
    (hsep : Covered texts sep) (hlists : ∀ s ∈ lists, Covered texts s) :
    Covered texts (sep.intercalate lists) :=
  forall_mem_intercalate hsep hlists

end Covered

end Reparse.Toy
