import Reparse.Proofs.Toy.Coverage
import Reparse.Proofs.Trial.Protocol

/-!
# What an exemption hides

Printing stops at the first literal without a spelling, and the verdict of a
trial sees that error only.  If the literal is a string whose bytes are no
text, the trial is exempt, also when a later literal has no spelling either.
To see whether bytes are all that stands in the way, they are replaced by text.
-/

namespace Reparse.Toy

/-- A string in the place of bytes. -/
def spellBytes (f : List UInt8 → String) : Atom → Atom
  | .bytes data => .str (f data)
  | atom => atom

/-- The atom has no spelling, and not because its bytes are no text. -/
def Obstructs (atom : Atom) : Prop :=
  (∀ data, atom ≠ .bytes data) ∧ spellingError? atom ≠ none

theorem spellingError?_spellBytes_ne_none_iff (f : List UInt8 → String)
    (atom : Atom) :
    spellingError? (spellBytes f atom) ≠ none ↔ Obstructs atom := by
  cases atom <;> simp [spellBytes, Obstructs, spellingError?]

/-- Bytes come first among the literals without a spelling, and a literal of
another kind is among the later ones. -/
def Masks (atoms : List Atom) : Prop :=
  ∃ before data after, atoms = before ++ .bytes data :: after ∧
    (∀ atom ∈ before, spellingError? atom = none) ∧
      ∃ atom ∈ after, Obstructs atom

section Masks

variable {atoms : List Atom} {error : PrintError}

theorem exists_bytes_of_findSome? {text name : String}
    (herror : atoms.findSome? spellingError? =
      some (.invalidEscape text name)) :
    ∃ before data after, atoms = before ++ .bytes data :: after ∧
      ∀ atom ∈ before, spellingError? atom = none := by
  obtain ⟨before, atom, after, rfl, hatom, hbefore⟩ :=
    List.findSome?_eq_some_iff.mp herror
  rcases spellingError?_cases hatom with
    ⟨_, -, -, heq⟩ | ⟨data, rfl, -⟩ | ⟨_, -, -, heq⟩
  · cases heq
  · exact ⟨before, data, after, rfl, hbefore⟩
  · cases heq

theorem findSome?_of_bytes {before after : List Atom} {data : List UInt8}
    (hbefore : ∀ atom ∈ before, spellingError? atom = none) :
    (before ++ .bytes data :: after).findSome? spellingError? =
      some (bytesError data) := by
  rw [List.findSome?_append, List.findSome?_eq_none_iff.mpr hbefore]
  rfl

theorem masks_iff_of_escape {text name : String}
    (herror : atoms.findSome? spellingError? =
      some (.invalidEscape text name)) :
    Masks atoms ↔ ∃ atom ∈ atoms, Obstructs atom := by
  constructor
  · rintro ⟨before, data, after, rfl, -, atom, hatom, hobstructs⟩
    exact ⟨atom, by simp [hatom], hobstructs⟩
  · rintro ⟨atom, hatom, hobstructs⟩
    obtain ⟨before, data, after, rfl, hbefore⟩ :=
      exists_bytes_of_findSome? herror
    refine ⟨before, data, after, rfl, hbefore, atom, ?_, hobstructs⟩
    rcases List.mem_append.mp hatom with hatom | hatom
    · exact absurd (hbefore atom hatom) hobstructs.2
    · rcases List.mem_cons.mp hatom with rfl | hatom
      · exact absurd rfl (hobstructs.1 data)
      · exact hatom

theorem Masks.findSome?_eq (hmasks : Masks atoms) :
    ∃ data, atoms.findSome? spellingError? = some (bytesError data) := by
  obtain ⟨before, data, after, rfl, hbefore, -⟩ := hmasks
  exact ⟨data, findSome?_of_bytes hbefore⟩

end Masks

/-! ## Bytes replaced -/

namespace Expr

/-- A node whose expression is writable stays one when its bytes are
replaced. -/
theorem writable_ofNode_spellBytes (f : List UInt8 → String) {node : Node} :
    (ofNode node).Writable →
      (ofNode (node.mapAtoms (spellBytes f))).Writable := by
  apply ofNode.induct
    (fun node => (ofNode node).Writable →
      (ofNode (node.mapAtoms (spellBytes f))).Writable)
    (fun node children => node.kind ≠ "sym" →
      WritableList (ofChildren node children) →
      ∀ other,
        WritableList
          (ofChildren other (Child.mapAtomsList (spellBytes f) children)))
  -- A node of no other shape is foreign, and a symbol is another shape.
  case case21 =>
      intro node
      intros
      next hsym _ _ _ _ _ _ _ _ _ hwritable =>
      rw [ofNode] at hwritable
      · obtain ⟨name, -, span, rfl⟩ := hwritable
        exact absurd rfl (hsym name span)
      all_goals assumption
  case case24 =>
      intro node atom rest ih hkind hwritable
      rw [ofChildren] at hwritable
      obtain ⟨⟨name, -, span, rfl⟩, -⟩ := hwritable
      exact absurd rfl hkind
  all_goals
    intros
    simp_all [ofNode, ofChildren, Formed, FormedList, Node.mapAtoms,
      Child.mapAtomsList, Child.mapAtoms, spellBytes, Node.kind, WritableLeaf,
      NamedLeaf]

end Expr

section Replaced

variable {tree : Tree}

theorem Tree.Writable.spellBytes (hwritable : Tree.Writable tree)
    (f : List UInt8 → String) :
    Tree.Writable (tree.mapAtoms (spellBytes f)) := by
  intro root hroot
  obtain ⟨before, hbefore, rfl⟩ := Option.map_eq_some_iff.mp hroot
  exact Expr.writable_ofNode_spellBytes f (hwritable before hbefore)

/-- Where text stands in the place of bytes, a tree is printed if nothing else
obstructs it. -/
theorem print_spellBytes_iff (hwritable : Tree.Writable tree)
    (f : List UInt8 → String) :
    (∃ text, print (tree.mapAtoms (spellBytes f)) = .ok text) ↔
      ∀ atom ∈ tree.atoms, ¬ Obstructs atom := by
  have hnone :
      (tree.mapAtoms (spellBytes f)).atoms.findSome? spellingError? = none ↔
      ∀ atom ∈ tree.atoms, ¬ Obstructs atom := by
    rw [Tree.atoms_mapAtoms, List.findSome?_eq_none_iff, List.forall_mem_map]
    apply forall₂_congr
    intro atom _
    rw [← spellingError?_spellBytes_ne_none_iff f, not_not]
  rw [← hnone]
  rcases (hwritable.spellBytes f).print_cases with
    ⟨error, herror, hprint⟩ | ⟨hfree, lists, -, hprint⟩
  · simp [herror, hprint]
  · simp [hfree, hprint]

end Replaced

/-! ## The verdict -/

section Verdict

variable {keep : Bool} {source : Source} {identification : String}
variable {tree : Tree}
variable {error : PrintError}

theorem spellingError?_ne_encoding {atom : Atom} {name detail : String} :
    spellingError? atom ≠ some (.encoding name detail) := by
  intro hspelling
  rcases spellingError?_cases hspelling with
    ⟨_, -, -, heq⟩ | ⟨_, -, heq⟩ | ⟨_, -, -, heq⟩
  · cases heq
  · cases heq
  · cases heq

theorem ofSource_eq_complete
    (hparse : parse keep source identification = .ok tree) :
    Trial.ofSource (parser keep) printer identification source =
      Trial.complete (parser keep) printer identification (some source)
        (.ok tree) :=
  congrArg (Trial.complete _ _ _ _) hparse

theorem verdict_of_escape {text name : String}
    (hparse : parse keep source identification = .ok tree)
    (hprint : print tree = .error (.invalidEscape text name)) :
    (Trial.ofSource (parser keep) printer identification source).verdict =
      .exempt .encodingGap := by
  rw [ofSource_eq_complete hparse]
  exact Trial.verdict_complete_of_gap (.spelling hprint)

/-- A trial whose tree has no text for any other reason than an escape is a
mismatch. -/
theorem verdict_of_other (hparse : parse keep source identification = .ok tree)
    (hprint : print tree = .error error)
    (herror : tree.atoms.findSome? spellingError? = some error)
    (hother : ∀ text name, error ≠ .invalidEscape text name) :
    (Trial.ofSource (parser keep) printer identification source).verdict =
      .mismatch := by
  have hgap : ¬ Trial.RepresentationGap printer (some source) tree := by
    intro hgap
    cases hgap with
    | spelling h =>
        cases hprint.symm.trans h
        exact hother _ _ rfl
    | reported h _ =>
        cases hprint.symm.trans h
        obtain ⟨atom, -, hspelling⟩ := List.exists_of_findSome?_eq_some herror
        exact spellingError?_ne_encoding hspelling
    | printed h => cases hprint.symm.trans h
  have hfailed :
      ¬ (Trial.complete (parser keep) printer identification (some source)
        (.ok tree)).success = true := by
    rw [Trial.success_complete]
    rintro ⟨again, ⟨text, encoded, htext, -, -⟩, -⟩
    cases hprint.symm.trans htext
  rw [ofSource_eq_complete hparse, Trial.verdict_complete_of_no_gap hgap,
    if_neg hfailed]

/-- A trial is exempt although something else than bytes stands in the way of
its text exactly if bytes mask it.  In every other case in which something else
stands in the way, the trial is a mismatch. -/
theorem masks_iff_of_parse (hfits : source.bytes.length < 2 ^ 63)
    (hparse : parse keep source identification = .ok tree)
    (f : List UInt8 → String) :
    (((Trial.ofSource (parser keep) printer identification source).verdict =
          .exempt .encodingGap ∧
        ¬ ∃ text, print (tree.mapAtoms (spellBytes f)) = .ok text) ↔
          Masks tree.atoms) ∧
      ((¬ ∃ text, print (tree.mapAtoms (spellBytes f)) = .ok text) →
        ¬ Masks tree.atoms →
        (Trial.ofSource (parser keep) printer identification source).verdict =
          .mismatch) := by
  have hwritable := (sound_of_parse hfits hparse).writable
  rw [print_spellBytes_iff hwritable f]
  simp only [not_forall, not_not]
  rcases hwritable.print_cases with ⟨error, herror, hprint⟩ | ⟨hnone, -⟩
  · by_cases hescape : ∃ text name, error = .invalidEscape text name
    · obtain ⟨text, name, rfl⟩ := hescape
      have hmasks := masks_iff_of_escape herror
      rw [verdict_of_escape hparse hprint]
      constructor
      · simpa using hmasks.symm
      · rintro ⟨atom, hatom, hobstructs⟩ hfree
        exact absurd (hmasks.mpr ⟨atom, hatom, hobstructs⟩) hfree
    · -- Bytes do not come first.
      have hfree : ¬ Masks tree.atoms := by
        intro hmasks
        obtain ⟨data, hdata⟩ := hmasks.findSome?_eq
        rw [herror] at hdata
        exact hescape ⟨_, _, Option.some.inj hdata⟩
      rw [verdict_of_other hparse hprint herror fun text name heq =>
        hescape ⟨text, name, heq⟩]
      simp [hfree]
  · have hfree : ∀ atom ∈ tree.atoms, ¬ Obstructs atom := by
      intro atom hatom hobstructs
      exact hobstructs.2 (List.findSome?_eq_none_iff.mp hnone atom hatom)
    have hunmasked : ¬ Masks tree.atoms := by
      intro hmasks
      obtain ⟨data, hdata⟩ := hmasks.findSome?_eq
      rw [hnone] at hdata
      cases hdata
    constructor
    · refine iff_of_false ?_ hunmasked
      rintro ⟨-, atom, hatom, hobstructs⟩
      exact hfree atom hatom hobstructs
    · rintro ⟨atom, hatom, hobstructs⟩
      exact absurd hobstructs (hfree atom hatom)

end Verdict

/-- A byte that is no text, and a number that is not finite behind it. -/
def bytesThenInfinity : Source :=
  .ofText "\"\\xff\"; 1e999".toList

theorem masks_bytesThenInfinity :
    ∃ tree, parse true bytesThenInfinity "input" = .ok tree ∧
      (Trial.ofSource (parser true) printer "input"
        bytesThenInfinity).verdict =
        .exempt .encodingGap ∧
      ¬ ∃ text, print (tree.mapAtoms (spellBytes fun _ => "text")) =
        .ok text := by
  have hatoms :
      (parse true bytesThenInfinity "input").toOption.map Tree.atoms =
      some [.bytes [0xff], .float (.infinity false)] := by decide +kernel
  obtain ⟨tree, hparse, hatoms⟩ := exists_parse_of_map hatoms
  have hmasks : Masks tree.atoms := by
    refine ⟨[], [0xff], [.float (.infinity false)], hatoms, by simp, _,
      List.mem_singleton_self _, ?_⟩
    exact ⟨by simp, by decide⟩
  refine ⟨tree, hparse, ?_⟩
  apply (masks_iff_of_parse (by decide) hparse fun _ => "text").1.mpr
  exact hmasks

end Reparse.Toy
