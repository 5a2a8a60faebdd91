import Reparse.Proofs.Tree.Atoms
import Reparse.Proofs.Tree.Texts

/-!
# Texts of nodes

A text spells a node when it has the parts of the node in their order, with
blanks of any kind and number before every child.  The reader takes such a text
off whatever follows and gives back the node, without places and with its NaN
settled, provided that kinds and symbols are words and the nodes do not lie too
deep.
-/

namespace Reparse

open Text

namespace Notation

/-- The reader takes the value off its text and leaves the rest. -/
def Reads {α : Type} {s : List Char}
    (result : Except NotationError (α × Rest s)) (value : α)
    (rest : List Char) : Prop :=
  ∃ left : Rest s, left.val = rest ∧ result = .ok (value, left)

/-! ## Strings -/

section Strings

variable {total : Nat} {c : Char} {s rest text : List Char}

theorem Reads.close : Reads (readString total ('"' :: rest)) [] rest := by
  refine ⟨Rest.tail '"' rest, rfl, ?_⟩
  rw [readString]

theorem Reads.plain (hquote : c ≠ '"') (hslash : c ≠ '\\')
    (hs : Reads (readString total s) text rest) :
    Reads (readString total (c :: s)) (c :: text) rest := by
  obtain ⟨left, hleft, hread⟩ := hs
  refine ⟨left.after c, hleft, ?_⟩
  rw [readString]
  · rw [hread]
    rfl
  · exact hquote
  · exact hslash

theorem Reads.escape {e : List Char} (hescape : Reads (readEscape total e) c s)
    (hs : Reads (readString total s) text rest) :
    Reads (readString total ('\\' :: e)) (c :: text) rest := by
  obtain ⟨after, rfl, hread⟩ := hescape
  obtain ⟨left, hleft, hread'⟩ := hs
  refine ⟨(after.trans left.weaken).after '\\', hleft, ?_⟩
  rw [readString]
  simp only [hread, hread']
  rfl

theorem reads_codePoint (c : Char) :
    Reads (readEscape total ('u' :: '{' :: (hex c.toNat ++ '}' :: s)))
      c s := by
  have hhex : ∀ d ∈ hex c.toNat, (d != '}') = true := fun d hd => by
    simpa using (hex_ne hd).2.1
  have hbrace : ∀ d ∈ ('}' :: s).head?, (d != '}') = false := by simp
  have htake := takeWhile_run hhex hbrace
  have hdrop := dropWhile_run hhex hbrace
  have hread :
      Reads (readUnicodeEscape total ('{' :: (hex c.toNat ++ '}' :: s)))
        c s := by
    simp only [readUnicodeEscape]
    split
    · next after rest hsome =>
        cases hdrop.symm.trans hsome
        simp only [htake, readCodePoint?_hex]
        exact ⟨_, rfl, rfl⟩
    · next hnone => cases hdrop.symm.trans hnone
  obtain ⟨left, hleft, hread⟩ := hread
  refine ⟨left.after 'u', hleft, ?_⟩
  simp only [readEscape, hread]
  rfl

theorem Reads.escapeChar (hs : Reads (readString total s) text rest)
    (c : Char) :
    Reads (readString total (escapeChar c ++ s)) (c :: text) rest := by
  unfold Reparse.escapeChar
  by_cases hquote : c = '"' ∨ c = '\\'
  · rw [if_pos hquote]
    rcases hquote with rfl | rfl
    · exact .escape ⟨_, rfl, rfl⟩ hs
    · exact .escape ⟨_, rfl, rfl⟩ hs
  rw [if_neg hquote]
  by_cases hfeed : c = '\n'
  · subst hfeed
    exact .escape ⟨_, rfl, rfl⟩ hs
  rw [if_neg hfeed]
  by_cases htab : c = '\t'
  · subst htab
    exact .escape ⟨_, rfl, rfl⟩ hs
  rw [if_neg htab]
  by_cases hreturn : c = '\r'
  · subst hreturn
    exact .escape ⟨_, rfl, rfl⟩ hs
  rw [if_neg hreturn]
  by_cases hcontrol : isControl c = true
  · rw [if_pos hcontrol]
    have happend :
        codePointEscape c ++ s =
          '\\' :: 'u' :: '{' :: (hex c.toNat ++ '}' :: s) := by
      simp [codePointEscape]
    rw [happend]
    exact .escape (reads_codePoint c) hs
  · rw [if_neg hcontrol]
    exact .plain (fun heq => hquote (.inl heq)) (fun heq =>
      hquote (.inr heq)) hs

/-- A quoted string is read back behind its opening quote. -/
theorem reads_quoted (text : List Char) :
    Reads (readString total (text.flatMap Reparse.escapeChar ++ '"' :: rest))
      text rest := by
  induction text with
  | nil => exact .close
  | cons c text ih =>
      rw [List.flatMap_cons, List.append_assoc]
      exact ih.escapeChar c

end Strings

/-! ## Children -/

section Children

variable {total budget : Nat} {kind : String} {s r rest rest' : List Char}
variable {cs : List Child}

theorem reads_children_close (hs : trimStart s = ')' :: rest) :
    Reads (readChildren total budget kind s) [] rest := by
  rw [readChildren]
  split
  · next hnil => cases hs.symm.trans hnil
  · next c r hcons =>
      cases hs.symm.trans hcons
      exact ⟨_, rfl, rfl⟩

theorem reads_children_node {node : Node} (hs : trimStart s = '(' :: r)
    (hnode : Reads (readNode total budget ('(' :: r)) node rest)
    (hmore : Reads (readChildren total budget kind rest) cs rest') :
    Reads (readChildren total budget kind s) (.node node :: cs) rest' := by
  rw [← hs] at hnode
  obtain ⟨left, rfl, hread⟩ := hnode
  obtain ⟨left', hleft', hread'⟩ := hmore
  rw [readChildren]
  split
  · next hnil => cases hs.symm.trans hnil
  · next c r hcons =>
      cases hs.symm.trans hcons
      simp only [if_neg (by decide : '(' ≠ ')'), if_true, hread, hread']
      exact ⟨_, hleft', rfl⟩

theorem reads_children_string {text : List Char} (hs : trimStart s = '"' :: r)
    (htext : Reads (readString total r) text rest)
    (hmore : Reads (readChildren total budget kind rest) cs rest') :
    Reads (readChildren total budget kind s)
      (.atom (.str (String.ofList text)) :: cs) rest' := by
  obtain ⟨left, rfl, hread⟩ := htext
  obtain ⟨left', hleft', hread'⟩ := hmore
  rw [readChildren]
  split
  · next hnil => cases hs.symm.trans hnil
  · next c r hcons =>
      cases hs.symm.trans hcons
      simp only [if_neg (by decide : '"' ≠ ')'),
        if_neg (by decide : '"' ≠ '('), if_true, hread,
        hread']
      exact ⟨_, hleft', rfl⟩

theorem reads_children_word {c : Char} {atom : Atom}
    (hs : trimStart s = c :: r) (hc : isWordChar c = true)
    (hatom : readAtom (c :: r.takeWhile isWordChar) = .ok atom)
    (hmore : Reads (readChildren total budget kind (r.dropWhile isWordChar))
      cs rest') :
    Reads (readChildren total budget kind s) (.atom atom :: cs) rest' := by
  obtain ⟨-, hopen, hclose, hquote⟩ := isWordChar_iff.mp hc
  obtain ⟨left', hleft', hread'⟩ := hmore
  rw [readChildren]
  split
  · next hnil => cases hs.symm.trans hnil
  · next c r hcons =>
      cases hs.symm.trans hcons
      simp only [hopen, hclose, hquote, hatom, hread', if_false]
      exact ⟨_, hleft', rfl⟩

theorem reads_node {children : List Child} (hkind : kind ≠ "")
    (hword : IsWord kind.toList) (hr : ∀ c ∈ r.head?, isWordChar c = false)
    (hchildren : Reads (readChildren total budget kind r) children rest) :
    Reads (readNode total (budget + 1) ('(' :: (kind.toList ++ r)))
      (.bare kind children) rest := by
  have htake := takeWhile_run (isWord_iff.mp hword) hr
  have hdrop := dropWhile_run (isWord_iff.mp hword) hr
  rw [← hdrop] at hchildren
  obtain ⟨left, hleft, hread⟩ := hchildren
  rw [readNode]
  have hne : kind.isEmpty = false := by simpa using hkind
  simp only [htake, String.ofList_toList, hne, Bool.false_eq_true, if_false,
    hread]
  exact ⟨_, hleft, rfl⟩

end Children

end Notation

open Notation

/-! ## Spellings -/

mutual

/-- The text has the parts of the node in their order, with blanks before every
child. -/
def Node.Spells : Node → List Char → Prop
  | .mk kind children _, s =>
    ∃ body, Child.SpellsList children body ∧
      s = '(' :: (kind.toList ++ (body ++ [')']))

def Child.Spells : Child → List Char → Prop
  | .node n, s => n.Spells s
  | .atom a, s => s = a.write

def Child.SpellsList : List Child → List Char → Prop
  | [], body => body = []
  | c :: cs, body =>
      ∃ gap s rest, gap ≠ [] ∧ (∀ blank ∈ gap, isBlank blank = true) ∧
      c.Spells s ∧ Child.SpellsList cs rest ∧ body = gap ++ (s ++ rest)

end

mutual

/-- Kinds and symbols are words, and at most `depth` nodes lie in each
other. -/
def Node.Fits : Node → Nat → Prop
  | _, 0 => False
  | .mk kind children _, depth + 1 =>
    kind ≠ "" ∧ IsWord kind.toList ∧ Child.FitsList children depth

def Child.Fits : Child → Nat → Prop
  | .node n, depth => n.Fits depth
  | .atom a, _ => a.Fits

def Child.FitsList : List Child → Nat → Prop
  | [], _ => True
  | c :: cs, depth => c.Fits depth ∧ Child.FitsList cs depth

end

/-- The children as they are read back from their text. -/
def Child.rereadList (cs : List Child) : List Child :=
  Child.withoutSpansList (Child.mapAtomsList Atom.settled cs)

/-- The node as it is read back from its text. -/
def Node.reread (n : Node) : Node :=
  (n.mapAtoms Atom.settled).withoutSpans

section Reading

variable {total : Nat}

theorem trimStart_gap {gap s : List Char} (hgap : ∀ c ∈ gap, isBlank c = true)
    (hs : ∀ c ∈ s.head?, isBlank c = false) : trimStart (gap ++ s) = s :=
  dropWhile_run hgap hs

theorem Node.Spells.exists_cons :
    ∀ {n : Node} {s : List Char}, n.Spells s → ∃ r, s = '(' :: r
  | .mk _ _ _, _, ⟨_, _, hs⟩ => ⟨_, hs⟩

/-- After a child there is a blank or the parenthesis that closes its node. -/
theorem Child.SpellsList.ends_word {cs : List Child} {body rest : List Char}
    (hbody : Child.SpellsList cs body) :
    ∀ c ∈ (body ++ ')' :: rest).head?, isWordChar c = false := by
  cases cs with
  | nil =>
      obtain rfl : body = [] := hbody
      simp [isWordChar]
  | cons child cs =>
      obtain ⟨gap, s, more, hne, hblank, -, -, rfl⟩ := hbody
      obtain ⟨blank, gap, rfl⟩ := List.exists_cons_of_ne_nil hne
      have hfirst := hblank blank List.mem_cons_self
      simp [isWordChar, hfirst]

theorem Atom.write_ne_nil {a : Atom} (hfits : a.Fits)
    (hstring : ¬ a.IsString) :
    a.write ≠ [] := by
  intro hnil
  have hread := (Atom.readAtom_write hfits hstring).2
  rw [hnil] at hread
  cases hread

/-- A word in front of the other children is read as its atom. -/
theorem reads_atom {a : Atom} {budget : Nat} {kind : String}
    {gap more rest : List Char} {cs : List Child} (hfits : a.Fits)
    (hstring : ¬ a.IsString) (hgap : ∀ c ∈ gap, isBlank c = true)
    (hends : ∀ c ∈ more.head?, isWordChar c = false)
    (hmore : Reads (readChildren total budget kind more) cs rest) :
    Reads (readChildren total budget kind (gap ++ (a.write ++ more)))
      (.atom a.settled :: cs)
      rest := by
  obtain ⟨hword, hread⟩ := Atom.readAtom_write hfits hstring
  obtain ⟨c, s, hwrite⟩ :=
    List.exists_cons_of_ne_nil (Atom.write_ne_nil hfits hstring)
  rw [hwrite] at hword hread ⊢
  obtain ⟨hc, hs⟩ := List.forall_mem_cons.mp (isWord_iff.mp hword)
  have hblank : isBlank c = false := (isWordChar_iff.mp hc).1
  have htrim : trimStart (gap ++ (c :: s ++ more)) = c :: (s ++ more) :=
    trimStart_gap hgap (by simpa using hblank)
  rw [← takeWhile_run hs hends] at hread
  rw [← dropWhile_run hs hends] at hmore
  exact reads_children_word htrim hc hread hmore

theorem reads_string {text : String} {budget : Nat} {kind : String}
    {gap more rest : List Char} {cs : List Child}
    (hgap : ∀ c ∈ gap, isBlank c = true)
    (hmore : Reads (readChildren total budget kind more) cs rest) :
    Reads
      (readChildren total budget kind (gap ++ ((Atom.str text).write ++ more)))
      (.atom (.str text) :: cs) rest := by
  have hquote : (Atom.str text).write ++ more =
      '"' :: (text.toList.flatMap escapeChar ++ '"' :: more) := by
    simp [Atom.write, quote]
  have htrim : trimStart (gap ++ ((Atom.str text).write ++ more)) =
      '"' :: (text.toList.flatMap escapeChar ++ '"' :: more) := by
    rw [hquote]
    exact trimStart_gap hgap (by simp [isBlank])
  have hread := reads_children_string htrim (reads_quoted text.toList) hmore
  rwa [String.ofList_toList] at hread

mutual

theorem Node.Spells.reads :
    ∀ {n : Node} {s rest : List Char} {budget : Nat}, n.Spells s →
    n.Fits budget → Reads (readNode total budget (s ++ rest)) n.reread rest
  | .mk kind children span, s, rest, 0, _, hfits => hfits.elim
  | .mk kind children span, s, rest, budget + 1, hspells, hfits => by
      obtain ⟨body, hbody, rfl⟩ := hspells
      obtain ⟨hkind, hword, hchildren⟩ := hfits
      have hmore : Reads (readChildren total budget kind (body ++ ')' :: rest))
          (Child.rereadList children) rest := hbody.reads hchildren
      have happend : '(' :: (kind.toList ++ (body ++ [')'])) ++ rest =
          '(' :: (kind.toList ++ (body ++ ')' :: rest)) := by simp
      rw [happend]
      exact reads_node hkind hword hbody.ends_word hmore

theorem Child.SpellsList.reads :
    ∀ {cs : List Child} {body rest : List Char} {budget : Nat}
    {kind : String}, Child.SpellsList cs body → Child.FitsList cs budget →
      Reads (readChildren total budget kind (body ++ ')' :: rest))
        (Child.rereadList cs) rest
  | [], body, rest, budget, kind, hspells, _ => by
      obtain rfl : body = [] := hspells
      exact reads_children_close rfl
  | .node n :: cs, body, rest, budget, kind, hspells, hfits => by
      obtain ⟨gap, s, more, -, hblank, hnode, hbody, rfl⟩ := hspells
      have hfirst :
          Reads (readNode total budget (s ++ (more ++ ')' :: rest))) n.reread
            (more ++ ')' :: rest) := hnode.reads hfits.1
      have hmore : Reads (readChildren total budget kind (more ++ ')' :: rest))
          (Child.rereadList cs) rest := hbody.reads hfits.2
      obtain ⟨r, rfl⟩ := hnode.exists_cons
      have htrim : trimStart (gap ++ ('(' :: r ++ (more ++ ')' :: rest))) =
          '(' :: (r ++ (more ++ ')' :: rest)) :=
        trimStart_gap hblank (by simp [isBlank])
      rw [List.append_assoc, List.append_assoc]
      exact reads_children_node htrim hfirst hmore
  | .atom a :: cs, body, rest, budget, kind, hspells, hfits => by
      obtain ⟨gap, s, more, -, hblank, hatom, hbody, rfl⟩ := hspells
      obtain rfl : s = a.write := hatom
      have hmore : Reads (readChildren total budget kind (more ++ ')' :: rest))
          (Child.rereadList cs) rest := hbody.reads hfits.2
      rw [List.append_assoc, List.append_assoc]
      by_cases hstring : a.IsString
      · obtain ⟨text, rfl⟩ := hstring
        exact reads_string hblank hmore
      · exact reads_atom hfits.1 hstring hblank hbody.ends_word hmore

end

end Reading

end Reparse
