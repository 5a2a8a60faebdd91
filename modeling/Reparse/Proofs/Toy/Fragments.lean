import Reparse.Proofs.Toy.Lexable
import Reparse.Proofs.Toy.Seams
import Reparse.Proofs.Toy.Weights

/-!
# The fragments of a printed text

A printed text is a row of fragments that are read one by one: blanks, marks,
words, literals and comments.  What a fragment is read as depends on no more
than the character behind it, so a row can be taken apart and put together
again wherever the characters at the seams allow it.  Only where the lexer gets
through a text are its tokens told here; that it does is another matter.
-/

namespace Reparse.Toy

open Text

inductive Fragment where
  | blank
  | mark (c : Char)
  | word (s : List Char)
  | int (digits : List Char)
  | float (whole fraction exponent : List Char) (value : Binary64)
  /-- A string or a symbol. -/
  | quoted (s : List Char) (kind : TokenKind)
  | comment (s : List Char)

/-- Whether a character ends any fragment in front of it.  A parenthesis opens
behind words alone. -/
def endsFragment (c : Char) : Bool :=
  isDelimiter c && c != '('

namespace Fragment

def text : Fragment → List Char
  | blank => [' ']
  | mark c => [c]
  | word s | int s | quoted s _ => s
  | float whole fraction exponent _ => whole ++ fraction ++ exponent
  | comment s => '#' :: s

def kind? : Fragment → Option TokenKind
  | blank | comment _ => none
  | mark c => if c = '\n' then some .separator else markToken? c
  | word s => some (wordToken s)
  | int digits => some (.int ((readInt64? digits).getD 0))
  | float _ _ _ value => some (.float value)
  | quoted _ kind => some kind

/-- The characters of the fragment are what its shape says. -/
def Sound : Fragment → Prop
  | blank => True
  | mark c => (mark c).kind?.isSome = true
  | word s =>
      ∃ c r, s = c :: r ∧ isWordStart c = true ∧ r.all isWordChar = true
  | int digits => IsDigits digits
  | float whole fraction exponent value =>
    IsDigits whole ∧ IsFraction fraction ∧ IsExponent exponent ∧
      (fraction ≠ [] ∨ exponent ≠ []) ∧
      ∀ encoding, Lexes encoding (whole ++ fraction ++ exponent) [.float value]
  | quoted s kind =>
    (∃ r, s = '"' :: r ∨ s = ':' :: r) ∧ kind.endsOperand = true ∧
      kind ≠ .rightParen ∧
      ∀ encoding, Lexes encoding s [kind]
  | comment s => '\n' ∉ s

def allows : Fragment → Char → Bool
  | blank, _ => true
  | mark c, d => c != ')' || endsFragment d
  | word _, d => !isWordChar d
  | int _, d | float _ _ _ _, d | quoted _ _, d => endsFragment d
  | comment _, d => d == '\n'

end Fragment

def texts (ps : List Fragment) : List Char :=
  ps.flatMap Fragment.text

def kinds (ps : List Fragment) : List TokenKind :=
  ps.filterMap Fragment.kind?

def SoundRow (ps : List Fragment) : Prop :=
  ∀ p ∈ ps, p.Sound

/-- Every fragment allows the character behind it. -/
def Row : List Fragment → List Char → Prop
  | [], _ => True
  | p :: ps, rest =>
      (∀ d ∈ (texts ps ++ rest).head?, p.allows d = true) ∧ Row ps rest

section Rows

variable {encoding : Encoding} {p : Fragment} {ps qs : List Fragment}
variable {s t rest rest' : List Char}
variable {c d : Char}

@[simp] theorem texts_cons (p : Fragment) (ps : List Fragment) :
    texts (p :: ps) = p.text ++ texts ps := rfl

@[simp] theorem texts_append (ps qs : List Fragment) :
    texts (ps ++ qs) = texts ps ++ texts qs :=
  List.flatMap_append

theorem texts_mark (ps : List Fragment) (c : Char) (qs : List Fragment) :
    texts (ps ++ .mark c :: qs) = texts ps ++ c :: texts qs := by
  rw [texts_append, texts_cons]
  rfl

theorem SoundRow.append_iff :
    SoundRow (ps ++ qs) ↔ SoundRow ps ∧ SoundRow qs :=
  List.forall_mem_append

theorem isDelimiter_of_endsFragment (hc : endsFragment c = true) :
    isDelimiter c = true :=
  (Bool.and_eq_true_iff.mp hc).1

theorem delimited_of_ends (hrest : ∀ d ∈ rest.head?, endsFragment d = true) :
    Delimited rest :=
  fun d hd => isDelimiter_of_endsFragment (hrest d hd)

/-- Every fragment but a comment allows what ends all fragments. -/
theorem Fragment.allows_of_ends (hp : ∀ s, p ≠ .comment s)
    (hd : endsFragment d = true) :
    p.allows d = true := by
  cases p with
  | blank => rfl
  | mark c => exact Bool.or_eq_true_iff.mpr (.inr hd)
  | word s =>
      rw [Fragment.allows,
        isWordChar_of_isDelimiter (isDelimiter_of_endsFragment hd)]
      rfl
  | int _ | float _ _ _ _ | quoted _ _ => exact hd
  | comment s => exact absurd rfl (hp s)

/-- A row stays one when what follows it is replaced, if every fragment that
allowed the former also allows the latter. -/
theorem Row.replace (hrow : Row ps rest)
    (hallows : ∀ p ∈ ps, (∀ d ∈ rest.head?, p.allows d = true) →
      ∀ d ∈ rest'.head?, p.allows d = true) : Row ps rest' := by
  induction ps with
  | nil => trivial
  | cons p ps ih =>
      obtain ⟨hnext, hmore⟩ := hrow
      refine ⟨?_, ih hmore fun q hq => hallows q (List.mem_cons_of_mem p hq)⟩
      cases htexts : texts ps with
      | nil =>
          rw [htexts] at hnext
          exact hallows p List.mem_cons_self hnext
      | cons c s =>
          rw [htexts] at hnext
          exact hnext

theorem Row.congr (hrow : Row ps rest) (hhead : rest.head? = rest'.head?) :
    Row ps rest' := by
  apply hrow.replace
  intro p _ hallows
  rwa [← hhead]

theorem row_append_iff :
    Row (ps ++ qs) rest ↔ Row ps (texts qs ++ rest) ∧ Row qs rest := by
  induction ps with
  | nil => exact ⟨fun hrow => ⟨trivial, hrow⟩, And.right⟩
  | cons p ps ih =>
      rw [List.cons_append, Row, Row, ih, texts_append, List.append_assoc,
        and_assoc]

/-! ## Reading fragments -/

/-- Where the lexer gets through the text in front of `rest`, it takes these
tokens off it. -/
def ReadsPast (encoding : Encoding) (s : List Char) (found : List TokenKind)
    (rest : List Char) : Prop :=
  ∀ place lexed, lexFrom encoding place (s ++ rest) = .ok lexed →
    ∃ toks next lexed', toks.map Token.kind = found ∧
      lexFrom encoding next rest = .ok lexed' ∧
      lexed.tokens = toks ++ lexed'.tokens ∧ lexed.stop = lexed'.stop

theorem readsPast_nil : ReadsPast encoding [] [] rest :=
  fun place lexed hlex => ⟨[], place, lexed, rfl, hlex, rfl, rfl⟩

theorem ReadsPast.append {found others : List TokenKind}
    (hs : ReadsPast encoding s found (t ++ rest))
    (ht : ReadsPast encoding t others rest) :
    ReadsPast encoding (s ++ t) (found ++ others) rest := by
  intro place lexed hlex
  rw [List.append_assoc] at hlex
  obtain ⟨toks, next, lexed', hkinds, hlex', htokens, hstop⟩ :=
    hs place lexed hlex
  obtain ⟨toks', next', lexed'', hkinds', hlex'', htokens', hstop'⟩ :=
    ht next lexed' hlex'
  refine ⟨toks ++ toks', next', lexed'', ?_, hlex'', ?_, hstop.trans hstop'⟩
  · rw [List.map_append, hkinds, hkinds']
  · rw [htokens, htokens', List.append_assoc]

theorem readsPast_of_prepend {found : List TokenKind}
    (hs : ∀ place, ∃ toks next, toks.map Token.kind = found ∧
      lexFrom encoding place (s ++ rest) =
        (lexFrom encoding next rest).map (Lexed.prepend toks)) :
    ReadsPast encoding s found rest := by
  intro place lexed hlex
  obtain ⟨toks, next, hkinds, hwhole⟩ := hs place
  rw [hwhole] at hlex
  obtain ⟨lexed', hlex', rfl⟩ := exists_of_map_eq_ok hlex
  exact ⟨toks, next, lexed', hkinds, hlex', rfl, rfl⟩

theorem Lexes.readsPast {found : List TokenKind} (hs : Lexes encoding s found)
    (hrest : Delimited rest) : ReadsPast encoding s found rest :=
  readsPast_of_prepend fun place => hs place rest hrest

/-- Digits are read as an integer, unless it is too large. -/
theorem readsPast_digits (hdigits : IsDigits s) (hrest : Delimited rest) :
    ReadsPast encoding s [.int ((readInt64? s).getD 0)] rest := by
  cases hread : readInt64? s with
  | some value =>
      have htoken :
          numberToken (s ++ [] ++ []) (!List.isEmpty ([] : List Char) ||
            !List.isEmpty ([] : List Char)) = .ok (.int value) := by
        simp [numberToken, hread]
      have hlexes : Lexes encoding (s ++ [] ++ []) [.int value] :=
        .number hdigits (.inl rfl) (.inl rfl) htoken
      rw [List.append_nil, List.append_nil] at hlexes
      exact hlexes.readsPast hrest
  | none =>
      have htoken :
          numberToken s false =
            .error (.integerTooLarge (String.ofList s)) := by
        simp [numberToken, hread]
      intro place lexed hlex
      exact absurd ⟨place, rest, lexed, hrest, hlex⟩
        (not_lexable_of_numberToken hdigits htoken)

theorem Fragment.Sound.readsPast (hp : p.Sound)
    (hrest : ∀ d ∈ rest.head?, p.allows d = true) :
    ReadsPast encoding p.text p.kind?.toList rest := by
  cases p with
  | blank =>
      exact readsPast_of_prepend fun place =>
        ⟨[], place.skip 1, rfl,
          (lexFrom_skipped rfl).trans (Lexed.map_prepend_nil _).symm⟩
  | mark c =>
      apply readsPast_of_prepend
      intro place
      by_cases hfeed : c = '\n'
      · subst hfeed
        exact ⟨_, _, rfl, lexFrom_lineFeed⟩
      · have hmark : (markToken? c).isSome = true := by
          simpa [Fragment.Sound, kind?, hfeed] using hp
        obtain ⟨kind, hkind⟩ := Option.isSome_iff_exists.mp hmark
        exact ⟨_, _, by simp [kind?, hfeed, hkind], lexFrom_mark hkind⟩
  | word s =>
      obtain ⟨c, r, rfl, hc, hr⟩ := hp
      apply readsPast_of_prepend
      intro place
      have hstops : ∀ d ∈ rest.head?, isWordChar d = false := fun d hd => by
        simpa [allows] using hrest d hd
      exact ⟨_, _, rfl, lexFrom_word hc hr hstops⟩
  | int digits => exact readsPast_digits hp (delimited_of_ends hrest)
  | float whole fraction exponent value =>
      exact (hp.2.2.2.2 encoding).readsPast (delimited_of_ends hrest)
  | quoted s kind =>
      exact (hp.2.2.2 encoding).readsPast (delimited_of_ends hrest)
  | comment s =>
      have hline : ∀ c ∈ s, (c != '\n') = true := bne_of_notMem hp
      have hend : ∀ c ∈ rest.head?, (c != '\n') = false := fun c hc => by
        simpa [allows] using hrest c hc
      intro place lexed hlex
      rw [text, List.cons_append, lexFrom_comment,
        dropWhile_run hline hend] at hlex
      obtain ⟨lexed', hlex', rfl⟩ := exists_of_map_eq_ok hlex
      exact ⟨[], _, lexed', rfl, hlex', rfl, rfl⟩

theorem kinds_cons (p : Fragment) (ps : List Fragment) :
    kinds (p :: ps) = p.kind?.toList ++ kinds ps := by
  unfold kinds
  rw [List.filterMap_cons]
  cases p.kind? <;> rfl

theorem kinds_append (ps qs : List Fragment) :
    kinds (ps ++ qs) = kinds ps ++ kinds qs :=
  List.filterMap_append

theorem Row.readsPast (hsound : SoundRow ps) (hrow : Row ps rest) :
    ReadsPast encoding (texts ps) (kinds ps) rest := by
  induction ps with
  | nil => exact readsPast_nil
  | cons p ps ih =>
      obtain ⟨hp, hps⟩ := List.forall_mem_cons.mp hsound
      rw [kinds_cons, texts_cons]
      exact (hp.readsPast hrow.1).append (ih hps hrow.2)

theorem Row.kinds_eq (hsound : SoundRow ps) (hrow : Row ps []) {place : Place}
    {lexed : Lexed} (hlex : lexFrom encoding place (texts ps) = .ok lexed) :
    lexed.tokens.map Token.kind = kinds ps := by
  rw [← List.append_nil (texts ps)] at hlex
  obtain ⟨toks, next, lexed', hkinds, hend, htokens, -⟩ :=
    hrow.readsPast hsound place lexed hlex
  rw [lexFrom_nil] at hend
  cases hend
  rw [htokens, List.append_nil, hkinds]

theorem Row.kinds_append_eq {place : Place} {lexed : Lexed}
    (hrow : Row ps (texts qs)) (hps : SoundRow ps) (hqs : SoundRow qs)
    (htail : Row qs [])
    (hlex : lexFrom encoding place (texts (ps ++ qs)) = .ok lexed) :
    lexed.tokens.map Token.kind = kinds ps ++ kinds qs := by
  have hwhole : Row (ps ++ qs) [] := by
    rw [row_append_iff, List.append_nil]
    exact ⟨hrow, htail⟩
  rw [hwhole.kinds_eq (SoundRow.append_iff.mpr ⟨hps, hqs⟩) hlex, kinds_append]

theorem stop_offset {place : Place} {lexed : Lexed}
    (hlex : lexFrom encoding place s = .ok lexed) :
    lexed.stop.offset = place.offset + s.length := by
  obtain ⟨taken, htaken, hstop⟩ := (reaches_of_lexFrom hlex).2.moves
  rw [List.append_nil] at htaken
  rw [hstop, offset_walk, htaken]

/-! ## Taking rows apart -/

theorem text_ne_nil (hp : p.Sound) : p.text ≠ [] := by
  cases p with
  | blank | mark c | comment s => exact List.cons_ne_nil _ _
  | word s =>
      obtain ⟨c, r, rfl, -⟩ := hp
      exact List.cons_ne_nil c r
  | int digits => exact hp.1
  | float whole fraction exponent value =>
      exact List.append_ne_nil_of_left_ne_nil
        (List.append_ne_nil_of_left_ne_nil hp.1.1 _) _
  | quoted s kind =>
      obtain ⟨⟨r, rfl | rfl⟩, -⟩ := hp
      · exact List.cons_ne_nil _ r
      · exact List.cons_ne_nil _ r

/-- A parenthesis is a fragment of its own. -/
theorem eq_mark_of_kind {kind : TokenKind} (hp : p.Sound)
    (hkind : p.kind? = some kind)
    (hparen : kind = .leftParen ∧ c = '(' ∨ kind = .rightParen ∧ c = ')') :
    p = .mark c := by
  cases p with
  | blank | comment s => cases hkind
  | mark d =>
      rw [Fragment.kind?] at hkind
      split at hkind
      · rcases hparen with ⟨rfl, rfl⟩ | ⟨rfl, rfl⟩ <;> cases hkind
      · unfold markToken? at hkind
        rcases hparen with ⟨rfl, rfl⟩ | ⟨rfl, rfl⟩ <;> split at hkind <;> first
          | rfl
          | cases hkind
  | word s =>
      rw [Fragment.kind?] at hkind
      unfold wordToken at hkind
      rcases hparen with ⟨rfl, rfl⟩ | ⟨rfl, rfl⟩ <;> split at hkind <;>
        cases hkind
  | int digits | float whole fraction exponent value =>
      rcases hparen with ⟨rfl, rfl⟩ | ⟨rfl, rfl⟩ <;> cases hkind
  | quoted s found =>
      cases hkind
      rcases hparen with ⟨rfl, rfl⟩ | ⟨rfl, rfl⟩
      · exact absurd hp.2.1 (by decide)
      · exact absurd rfl hp.2.2.1

theorem exists_split {kind : TokenKind} {before after : List TokenKind}
    (hsound : SoundRow ps) (hkinds : kinds ps = before ++ kind :: after)
    (hparen : kind = .leftParen ∧ c = '(' ∨ kind = .rightParen ∧ c = ')') :
    ∃ front back, ps = front ++ .mark c :: back ∧ kinds front = before ∧
      kinds back = after := by
  obtain ⟨front, others, rfl, hfront, hothers⟩ :=
    List.filterMap_eq_append_iff.mp hkinds
  obtain ⟨blanks, p, back, rfl, hblanks, hkind, hback⟩ :=
    List.filterMap_eq_cons_iff.mp hothers
  obtain rfl : p = .mark c := eq_mark_of_kind (hsound p (by simp)) hkind hparen
  refine ⟨front ++ blanks, back, (List.append_assoc _ _ _).symm, ?_, hback⟩
  have hnone : blanks.filterMap Fragment.kind? = [] :=
    List.filterMap_eq_nil_iff.mpr hblanks
  unfold kinds
  rw [List.filterMap_append, hfront, hnone, List.append_nil]

/-- A token stands behind the text of the fragments in front of it. -/
theorem start_offset {place : Place} {lexed : Lexed}
    {before after : List Token} {t : Token} (hsound : SoundRow ps)
    (hrow : Row ps (c :: rest)) (hmark : (markToken? c).isSome = true)
    (hlex : lexFrom encoding place (texts ps ++ c :: rest) = .ok lexed)
    (htokens : lexed.tokens = before ++ t :: after)
    (hbefore : before.map Token.kind = kinds ps) :
    t.start.offset = place.offset + (texts ps).length := by
  obtain ⟨kind, hkind⟩ := Option.isSome_iff_exists.mp hmark
  obtain ⟨toks, next, lexed', hkinds, hlex', htokens', hstop⟩ :=
    hrow.readsPast hsound place lexed hlex
  have hend := stop_offset hlex
  rw [hstop, stop_offset hlex', List.length_append] at hend
  rw [lexFrom_mark hkind] at hlex'
  obtain ⟨others, -, rfl⟩ := exists_of_map_eq_ok hlex'
  rw [htokens] at htokens'
  have hlength : before.length = toks.length := by
    rw [← List.length_map Token.kind, hbefore, ← hkinds, List.length_map]
  obtain ⟨-, hrest⟩ := List.append_inj htokens' hlength
  obtain ⟨rfl, -⟩ := List.cons.inj hrest
  dsimp only
  omega

end Rows

end Reparse.Toy
