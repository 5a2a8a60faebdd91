import Reparse.Proofs.Toy.Fragments
import Reparse.Proofs.Toy.Stability

/-!
# Printed texts as rows

What is printed of an expression is a row of fragments in front of whatever
ends a fragment, and what is printed of a tree is a row up to its end.  This
holds of all trees that are printed, whether or not their texts are read.
-/

namespace Reparse.Toy

open Text

/-! ## Printed expressions -/

/-- The text is a row of fragments, in front of all that ends a fragment. -/
def Fragmented (s : List Char) : Prop :=
  ∃ ps, texts ps = s ∧ SoundRow ps ∧
    ∀ rest, (∀ d ∈ rest.head?, endsFragment d = true) → Row ps rest

section Printed

variable {p : Fragment} {s t : List Char} {c : Char} {name : String}

theorem Fragmented.single (hp : p.Sound) (hcomment : ∀ s, p ≠ .comment s) :
    Fragmented p.text := by
  refine ⟨[p], List.append_nil _, List.forall_mem_singleton.mpr hp, ?_⟩
  intro rest hrest
  refine ⟨?_, trivial⟩
  intro d hd
  exact Fragment.allows_of_ends hcomment (hrest d hd)

theorem Fragmented.append (hs : Fragmented s) (ht : Fragmented t)
    (hends : ∀ d ∈ t.head?, endsFragment d = true) : Fragmented (s ++ t) := by
  obtain ⟨ps, rfl, hps, hrow⟩ := hs
  obtain ⟨qs, rfl, hqs, hrow'⟩ := ht
  refine ⟨ps ++ qs, texts_append ps qs, List.forall_mem_append.mpr ⟨hps, hqs⟩,
    fun rest hrest => ?_⟩
  refine row_append_iff.mpr ⟨hrow _ ?_, hrow' rest hrest⟩
  cases htexts : texts qs with
  | nil => exact hrest
  | cons c s =>
      rw [htexts] at hends
      exact hends

theorem Fragmented.cons (hp : p.Sound) (hallows : ∀ d, p.allows d = true)
    (hs : Fragmented s) : Fragmented (p.text ++ s) := by
  obtain ⟨ps, rfl, hps, hrow⟩ := hs
  refine ⟨p :: ps, rfl, List.forall_mem_cons.mpr ⟨hp, hps⟩, ?_⟩
  intro rest hrest
  refine ⟨?_, hrow rest hrest⟩
  intro d _
  exact hallows d

theorem Fragmented.blank (hs : Fragmented s) : Fragmented (' ' :: s) :=
  .cons (p := .blank) trivial (fun _ => rfl) hs

theorem Fragmented.mark (hmark : (markToken? c).isSome = true)
    (hclose : c ≠ ')') (hs : Fragmented s) : Fragmented (c :: s) := by
  refine Fragmented.cons (p := .mark c) ?_ ?_ hs
  · have hfeed : c ≠ '\n' := by
      rintro rfl
      cases hmark
    rw [Fragment.Sound, Fragment.kind?, if_neg hfeed]
    exact hmark
  · intro d
    simp [Fragment.allows, hclose]

theorem fragmented_nil : Fragmented [] :=
  ⟨[], rfl, List.forall_mem_nil _, fun _ _ => trivial⟩

theorem fragmented_close : Fragmented [')'] :=
  .single (p := .mark ')') rfl nofun

theorem Fragmented.parenthesize (hs : Fragmented s) :
    Fragmented (parenthesize s) :=
  .mark rfl (by decide)
    (hs.append fragmented_close (by simp [endsFragment, isDelimiter]))

theorem Fragmented.wrap {parens : Bool} (hs : Fragmented s) :
    Fragmented (if parens then Toy.parenthesize s else s) := by
  cases parens with
  | false => exact hs
  | true => exact hs.parenthesize

theorem Fragmented.atLeast {w : Written} (hs : Fragmented w.text)
    (least : Nat) :
    Fragmented (w.atLeast least) := by
  unfold Written.atLeast
  split
  · exact hs.parenthesize
  · exact hs

theorem Fragmented.intercalate {ss : List (List Char)} {sep : List Char}
    (hsep : ∀ s, Fragmented s → Fragmented (sep ++ s))
    (hends : ∀ s, ∀ d ∈ (sep ++ s).head?, endsFragment d = true)
    (hss : ∀ s ∈ ss, Fragmented s) : Fragmented (sep.intercalate ss) := by
  induction ss with
  | nil => exact fragmented_nil
  | cons s ss ih =>
      obtain ⟨hs, hmore⟩ := List.forall_mem_cons.mp hss
      cases ss with
      | nil =>
          rw [List.intercalate_singleton]
          exact hs
      | cons t ss =>
          rw [List.intercalate_cons_cons, List.append_assoc]
          exact hs.append (hsep _ (ih hmore)) (hends _)

theorem sound_word (hname : isName name = true) :
    (Fragment.word name.toList).Sound := by
  obtain ⟨c, r, htext, hc, hr, -⟩ := isName_cases hname
  exact ⟨c, r, htext, hc, hr⟩

theorem fragmented_name (hname : isName name = true) :
    Fragmented name.toList :=
  .single (sound_word hname) nofun

/-- A name with parentheses behind it. -/
theorem Fragmented.call (hname : isName name = true) (hs : Fragmented s) :
    Fragmented (name.toList ++ Toy.parenthesize s) := by
  obtain ⟨ps, htexts, hps, hrow⟩ := hs.parenthesize
  refine ⟨.word name.toList :: ps, ?_,
    List.forall_mem_cons.mpr ⟨sound_word hname, hps⟩,
    fun rest hrest => ⟨?_, hrow rest hrest⟩⟩
  · rw [texts_cons, htexts]
    rfl
  · rw [htexts]
    rintro d hd
    obtain rfl : '(' = d := Option.some.inj hd
    rfl

theorem Fragmented.digits {n : Nat} : Fragmented (decimal n) :=
  .single (p := .int (decimal n)) (isDigits_decimal n) nofun

theorem Fragmented.int (value : Int) : Fragmented (decimalInt value) := by
  unfold decimalInt
  split
  · exact Fragmented.digits.mark rfl (by decide)
  · exact Fragmented.digits

theorem Fragmented.float {value : Binary64} (hfinite : value.isFinite = true) :
    Fragmented value.literal := by
  have hpositive : ∀ {x : Binary64}, x.isFinite = true → x.isNegative = false →
      Fragmented x.literal := by
    intro x hfinite hsign
    obtain ⟨whole, fraction, exponent, htext, hwhole, hfraction, hexponent,
      hmarked, -⟩ :=
      Binary64.exists_parts literalLayout rfl hfinite
    have hliteral : x.literal = whole ++ fraction ++ exponent := by
      unfold Binary64.literal
      rw [Binary64.write_of_isFinite hfinite, hsign, htext]
      rfl
    have hlexes :
        ∀ encoding,
          Lexes encoding (whole ++ fraction ++ exponent) [.float x] := by
      rw [← hliteral]
      exact fun _ => .float hfinite hsign
    rw [hliteral]
    exact .single (p := .float whole fraction exponent x)
      ⟨hwhole, hfraction, hexponent, hmarked, hlexes⟩ nofun
  cases hsign : value.isNegative with
  | false => exact hpositive hfinite hsign
  | true =>
      have hneg : Fragmented value.neg.literal :=
        hpositive (by simpa using hfinite) (by simp [hsign])
      unfold Binary64.literal at hneg ⊢
      rw [Binary64.write_of_isNegative hfinite hsign]
      exact hneg.mark rfl (by decide)

theorem Fragmented.str (text : String) :
    Fragmented (stringLiteral text.toList) :=
  .single (p := .quoted (stringLiteral text.toList) (.str text))
    ⟨⟨_, .inl rfl⟩, rfl, nofun, fun _ => .str text⟩ nofun

theorem Fragmented.sym (hname : isSymbol name = true) :
    Fragmented (':' :: name.toList) :=
  .single (p := .quoted (':' :: name.toList) (.sym name))
    ⟨⟨_, .inr rfl⟩, rfl, nofun, fun _ => .symbol hname⟩ nofun

theorem fragmented_reserved {c : Char} {r : List Char}
    (hc : isWordStart c = true) (hr : r.all isWordChar = true) :
    Fragmented (c :: r) :=
  .single (p := .word (c :: r)) ⟨c, r, rfl, hc, hr⟩ nofun

end Printed

namespace Expr

mutual

/-- What is written of an expression is a row of fragments. -/
theorem fragmented_of_write :
    ∀ {e : Expr} {locals locals' : List String} {w : Written},
    e.Named → e.write locals = .ok (w, locals') → Fragmented w.text
  | int value, _, _, _, _, hwrite => by
      cases hwrite
      exact .int value.toInt
  | float value, _, _, _, _, hwrite => by
      obtain ⟨hfinite, rfl, -⟩ := write_float_eq_ok_iff.mp hwrite
      exact .float hfinite
  | str text, _, _, _, _, hwrite => by
      cases hwrite
      exact .str text
  | bytes _, _, _, _, _, hwrite | foreign _, _, _, _, _, hwrite =>
      by cases hwrite
  | sym _, _, _, _, hnamed, hwrite => by
      cases hwrite
      exact .sym hnamed
  | nil, _, _, _, _, hwrite | bool true, _, _, _, _, hwrite
  | bool false, _, _, _, _, hwrite => by
      cases hwrite
      exact fragmented_reserved rfl rfl
  | var _, _, _, _, hnamed, hwrite => by
      cases hwrite
      exact fragmented_name hnamed
  | assign name value, _, _, _, hnamed, hwrite => by
      obtain ⟨v, hvalue, rfl⟩ := write_assign_eq_ok_iff.mp hwrite
      have hmark : Fragmented (" = ".toList ++ v.text) :=
        .blank
          (.mark rfl (by decide)
            (.blank (fragmented_of_write hnamed.2 hvalue)))
      rw [List.append_assoc]
      exact (fragmented_name hnamed.1).append hmark
        (by simp [endsFragment, isDelimiter])
  | sequence items, _, _, _, hnamed, hwrite => by
      obtain ⟨texts, hitems, rfl⟩ := write_sequence_eq_ok_iff.mp hwrite
      refine Fragmented.parenthesize (.intercalate (fun s hs => ?_) ?_
        (fragmented_of_writeList hnamed hitems))
      · exact .mark rfl (by decide) hs.blank
      · simp [endsFragment, isDelimiter]
  | negate operand, _, _, _, hnamed, hwrite => by
      obtain ⟨v, hoperand, rfl⟩ := write_negate_eq_ok_iff.mp hwrite
      have htext : Fragmented v.text :=
        fragmented_of_write (e := operand) hnamed hoperand
      refine Fragmented.mark rfl (by decide) ?_
      split
      · exact htext.parenthesize
      · exact htext.atLeast unaryLevel
  | infixed left op right, _, _, _, hnamed, hwrite => by
      obtain ⟨l, between, hleft, r, hright, rfl⟩ :=
        write_infixed_eq_ok_iff.mp hwrite
      have hsign : (markToken? op.sign).isSome = true ∧ op.sign ≠ ')' := by
        cases op <;> decide
      have hleft : Fragmented l.text := fragmented_of_write hnamed.1 hleft
      have hright : Fragmented r.text := fragmented_of_write hnamed.2 hright
      rw [List.append_assoc]
      exact (hleft.atLeast _).append
        (.blank (.mark hsign.1 hsign.2 (.blank (hright.atLeast _))))
        (by simp [endsFragment, isDelimiter])
  | call name args, _, _, _, hnamed, hwrite => by
      obtain ⟨texts, hargs, rfl⟩ := write_call_eq_ok_iff.mp hwrite
      dsimp only
      split
      · rw [List.append_nil]
        exact fragmented_name hnamed.1
      · refine Fragmented.call hnamed.1 (.intercalate (fun s hs => ?_) ?_
          (fragmented_of_writeList hnamed.2 hargs))
        · exact .mark rfl (by decide) hs.blank
        · simp [endsFragment, isDelimiter]

theorem fragmented_of_writeList :
    ∀ {es : List Expr} {locals locals' : List String}
    {lists : List (List Char)},
      NamedList es → writeList locals es = .ok (lists, locals') →
      ∀ s ∈ lists, Fragmented s
  | [], _, _, _, _, hwrite => by
      cases hwrite
      exact List.forall_mem_nil _
  | e :: es, _, _, _, hnamed, hwrite => by
      obtain ⟨v, between, hfirst, more, hmore, rfl⟩ :=
        writeList_cons_eq_ok_iff.mp hwrite
      exact List.forall_mem_cons.mpr
        ⟨fragmented_of_write hnamed.1 hfirst,
          fragmented_of_writeList hnamed.2 hmore⟩

end

end Expr

/-! ## Printed programs -/

section Programs

variable {s t : List Char} {tree : Tree} {text : String}

/-- A row of fragments up to the end of a line. -/
def FragmentedLine (s : List Char) : Prop :=
  ∃ ps, texts ps = s ∧ SoundRow ps ∧ ∀ rest, AtLineEnd rest → Row ps rest

theorem Fragmented.line (hs : Fragmented s) : FragmentedLine s := by
  obtain ⟨ps, htexts, hps, hrow⟩ := hs
  refine ⟨ps, htexts, hps, fun rest hrest => hrow rest fun d hd => ?_⟩
  rw [hrest d hd]
  rfl

theorem fragmentedLine_comment {comment : Comment}
    (hfeed : '\n' ∉ comment.text.toList) :
    FragmentedLine (commentLine comment) := by
  refine ⟨[.comment comment.text.toList], List.append_nil _,
    List.forall_mem_singleton.mpr hfeed,
    fun rest hrest => ⟨fun d hd => ?_, trivial⟩⟩
  rw [hrest d hd]
  rfl

theorem FragmentedLine.append (hs : FragmentedLine s) (ht : FragmentedLine t) :
    FragmentedLine (s ++ '\n' :: t) := by
  obtain ⟨ps, rfl, hps, hrow⟩ := hs
  obtain ⟨qs, rfl, hqs, hrow'⟩ := ht
  have hfeed : SoundRow (.mark '\n' :: qs) :=
    List.forall_mem_cons.mpr ⟨rfl, hqs⟩
  refine ⟨ps ++ .mark '\n' :: qs, texts_append ps _,
    List.forall_mem_append.mpr ⟨hps, hfeed⟩,
    fun rest hrest => ?_⟩
  exact row_append_iff.mpr ⟨hrow _ (atLineEnd_lineFeed _), fun _ _ =>
    rfl, hrow' rest hrest⟩

theorem fragmentedLine_lines {lines : List (List Char)}
    (hlines : ∀ s ∈ lines, FragmentedLine s) :
    FragmentedLine (joinWith ['\n'] lines) := by
  unfold joinWith
  induction lines with
  | nil => exact fragmented_nil.line
  | cons s lines ih =>
      obtain ⟨hs, hmore⟩ := List.forall_mem_cons.mp hlines
      cases lines with
      | nil =>
          rw [List.intercalate_singleton]
          exact hs
      | cons t lines =>
          rw [List.intercalate_cons_cons, List.append_assoc]
          exact hs.append (ih hmore)

/-- A printed tree is a row of fragments. -/
theorem exists_fragments
    (hcomments : ∀ comment ∈ tree.comments.getD [], '\n' ∉ comment.text.toList)
    (hprint : print tree = .ok text) :
    ∃ ps, texts ps = text.toList ∧ SoundRow ps ∧ Row ps [] := by
  unfold print programLines at hprint
  cases hwrite : Expr.writeList [] (programOf tree.root) with
  | error e =>
      rw [hwrite] at hprint
      cases hprint
  | ok found =>
      rw [hwrite] at hprint
      cases hprint
      have hstatements :=
        Expr.fragmented_of_writeList (named_programOf tree.root) hwrite
      have hlines : FragmentedLine (joinWith ['\n']
          (found.1 ++ (tree.comments.getD []).map commentLine)) := by
        apply fragmentedLine_lines
        intro s hs
        rcases List.mem_append.mp hs with hs | hs
        · exact (hstatements s hs).line
        · obtain ⟨comment, hcomment, rfl⟩ := List.mem_map.mp hs
          exact fragmentedLine_comment (hcomments comment hcomment)
      obtain ⟨ps, htexts, hps, hrow⟩ := hlines
      refine ⟨ps, ?_, hps, hrow [] atLineEnd_nil⟩
      rw [htexts, String.toList_ofList]
      rfl

end Programs

end Reparse.Toy
