import Reparse.Proofs.Toy.Parsed

/-!
# Which parsed trees are printed

The lexer takes any word after a colon for a symbol, and the printer only names
and operators.  A parsed tree without its two documented gaps, numbers that are
not finite and bytes that are not text, is therefore printed unless it holds a
symbol named like a reserved word.
-/

namespace Reparse.Toy

open Text

/-- The error for a symbol that is not a name. -/
def symbolError (name : String) : PrintError :=
  .unsupported (Node.toString (.bare "sym" [.atom (.sym name)]))

theorem spellingError?_cases {atom : Atom} {error : PrintError}
    (herror : spellingError? atom = some error) :
    (∃ value, atom = .float value ∧ value.isFinite = false ∧
      error = notFiniteError value) ∨
      (∃ data, atom = .bytes data ∧ error = bytesError data) ∨
      ∃ name ∈ reservedWords, atom = .sym name ∧ error = symbolError name := by
  unfold spellingError? at herror
  split at herror
  · next value =>
      split at herror
      · cases herror
      · next hfinite =>
          cases herror
          exact .inl ⟨value, rfl, by simpa using hfinite, rfl⟩
  · next data =>
      cases herror
      exact .inr (.inl ⟨data, rfl, rfl⟩)
  · next name =>
      split at herror
      · next hreserved =>
          cases herror
          exact .inr (.inr ⟨name, hreserved, rfl, rfl⟩)
      · cases herror
  · cases herror

theorem exists_of_findSome?_spellingError? {atoms : List Atom}
    {error : PrintError} (herror : atoms.findSome? spellingError? = some error)
    (hfinite : ∀ value, Atom.float value ∈ atoms → value.isFinite = true)
    (hbytes : ∀ data, Atom.bytes data ∉ atoms) :
    ∃ name ∈ reservedWords, Atom.sym name ∈ atoms ∧
      error = symbolError name := by
  obtain ⟨atom, hatom, hspelling⟩ := List.exists_of_findSome?_eq_some herror
  rcases spellingError?_cases hspelling with
    ⟨value, rfl, hinfinite, -⟩ | ⟨data, rfl, -⟩ | ⟨name, hreserved, rfl, hname⟩
  · rw [hfinite value hatom] at hinfinite
    cases hinfinite
  · exact absurd hatom (hbytes data)
  · exact ⟨name, hreserved, hatom, hname⟩

/-- A parsed tree whose numbers are finite and whose strings are text is
printed exactly if none of its symbols is named like a reserved word; otherwise
such a symbol is reported as unsupported. -/
theorem print_isOk_iff_of_parse {keep : Bool} {source : Source}
    {identification : String} {tree : Tree}
    (hfits : source.bytes.length < 2 ^ 63)
    (hparse : parse keep source identification = .ok tree)
    (hfinite : ∀ value, Atom.float value ∈ tree.atoms → value.isFinite = true)
    (hbytes : ∀ data, Atom.bytes data ∉ tree.atoms) :
    ((∃ text, print tree = .ok text) ↔
      ∀ name ∈ reservedWords, Atom.sym name ∉ tree.atoms) ∧
      ∀ error, print tree = .error error →
        ∃ name ∈ reservedWords, Atom.sym name ∈ tree.atoms ∧
          error = symbolError name := by
  rcases (sound_of_parse hfits hparse).print_cases with
    ⟨error, herror, hprint⟩ | ⟨hnone, lists, -, hprint⟩
  · obtain ⟨name, hreserved, hname, rfl⟩ :=
      exists_of_findSome?_spellingError? herror hfinite hbytes
    constructor
    · constructor
      · rintro ⟨text, htext⟩
        rw [hprint] at htext
        cases htext
      · intro hfree
        exact absurd hname (hfree name hreserved)
    · intro error herror'
      rw [hprint] at herror'
      cases herror'
      exact ⟨name, hreserved, hname, rfl⟩
  · constructor
    · refine iff_of_true ⟨_, hprint⟩ fun name hreserved hname => ?_
      have hspelling : spellingError? (.sym name) = none :=
        List.findSome?_eq_none_iff.mp hnone _ hname
      have hunspelled : spellingError? (.sym name) = some _ := if_pos hreserved
      rw [hunspelled] at hspelling
      cases hspelling
    · intro error herror
      rw [hprint] at herror
      cases herror

/-- The program `:nil` is read and not printed. -/
theorem symbol_nil_not_printed :
    ∃ tree, parse true (.ofText ":nil".toList) "example" = .ok tree ∧
      ¬ ∃ text, print tree = .ok text := by
  have hatoms :
      (parse true (.ofText ":nil".toList) "example").toOption.map Tree.atoms =
      some [.sym "nil"] := by decide +kernel
  obtain ⟨tree, hparse, hatoms⟩ := exists_parse_of_map hatoms
  have hexact :=
    print_isOk_iff_of_parse (by decide) hparse (by simp [hatoms])
      (by simp [hatoms])
  refine ⟨tree, hparse, fun hprinted => ?_⟩
  exact hexact.1.mp hprinted "nil" (by decide) (by simp [hatoms])

end Reparse.Toy
