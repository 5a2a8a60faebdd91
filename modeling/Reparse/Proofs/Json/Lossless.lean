import Reparse.Json.Tree
import Reparse.Json.Trial
import Reparse.Proofs.Text.Digits
import Reparse.Proofs.Tree.Texts
import Mathlib.Data.String.Basic

/-!
# JSON forms lose nothing

A tree is written as an object and read back after the members of every object
were put in the order of their names.  A child does not say whether it is a
node or an atom: it is read as a node first.  The two are told apart by their
members alone, for a node has one for its kind, which no atom has, and it has
at least two, where an atom has one.  So an atom is never read as a node, and a
node that is not read is not read as an atom either.

The one value that is lost is a float that is not finite: it is written as
`null`, which no number is. A tree with such a float cannot be read back, and
every other tree is read back as it was, its places included and an absent list
of comments apart from an empty one.

An error is tagged with its cause, and the error of a stage carries two tags
beside each other.  A tag is taken out of an object in whatever order the
members are, so the two are taken one after the other.
-/

namespace Reparse

/-! ## Values of fields -/

namespace Json

variable {α : Type}

@[simp] theorem decodeText_str (s : String) : (str s).decodeText = .ok s := rfl

@[simp] theorem decodeBool_bool (value : Bool) :
    (bool value).decodeBool = .ok value := rfl

@[simp] theorem decodeNat_int (n : Nat) : (int n).decodeNat = .ok n := by
  simp [decodeNat, nat?, Decoded.ofOption]

@[simp] theorem sortedItems_nil : sortedItems [] = [] := rfl

@[simp] theorem sortedItems_cons (item : Json) (items : List Json) :
    sortedItems (item :: items) = item.sorted :: sortedItems items := rfl

theorem sorted_obj (members : List (String × Json)) :
    (obj members).sorted = obj (sortedMembers members []) := by
  rw [sorted]

/-- A list is read back when each of its elements is. -/
theorem decodeList_map {decode : Json → Decoded α} {write : α → Json}
    (hread : ∀ x, decode (write x).sorted = .ok x) (xs : List α) :
    decodeList decode (arr (xs.map write)).sorted = .ok xs := by
  have hitems : (sortedItems (xs.map write)).mapM decode = .ok xs := by
    induction xs with
    | nil => rfl
    | cons x xs ih =>
        rw [List.map_cons, sortedItems_cons, List.mapM_cons, hread, ih]
        rfl
  rw [sorted]
  exact hitems

end Json

namespace Decoded

variable {α β : Type}

@[simp] theorem bind_ok (x : α) (f : α → Decoded β) :
    ((.ok x : Decoded α) >>= f) = f x := rfl

@[simp] theorem bind_error (e : DecodeError) (f : α → Decoded β) :
    ((.error e : Decoded α) >>= f) = .error e := rfl

@[simp] theorem pure_eq (x : α) : (pure x : Decoded α) = .ok x := rfl

@[simp] theorem functorMap_eq (f : α → β) (x : Decoded α) :
    f <$> x = x.map f := rfl

@[simp] theorem map_ok (f : α → β) (x : α) :
    (Except.ok x : Decoded α).map f = .ok (f x) := rfl

@[simp] theorem map_error (f : α → β) (e : DecodeError) :
    (Except.error e : Decoded α).map f = .error e := rfl

@[simp] theorem once_none (x : α) : once none (.ok x) = .ok (some x) := rfl

@[simp] theorem once_none_error (e : DecodeError) :
    once (none : Option α) (.error e) = .error e := rfl

@[simp] theorem required_none (name : String) :
    required name (none : Option α) = .error (.missingField name) := rfl

@[simp] theorem required_some (name : String) (x : α) :
    required name (some x) = .ok x := rfl

end Decoded

/-! ## Places -/

theorem Span.sorted_toJson (span : Span) :
    span.toJson.sorted = span.toJson := rfl

theorem Span.ofJson_toJson (span : Span) :
    Span.ofJson span.toJson = .ok span := by
  simp [Span.toJson, Span.ofJson, SpanFields.read]

theorem Span.decodeOption_toJson (span : Span) :
    span.toJson.decodeOption Span.ofJson = .ok (some span) := by
  have hread := span.ofJson_toJson
  unfold Span.toJson at hread ⊢
  rw [Json.decodeOption, hread]
  · rfl
  · simp

/-! ## Atoms and nodes -/

/-- A value that is read back under a condition, and where the condition fails,
nothing is read. -/
def Recovers {α : Type} (condition : Prop) (x : α) (result : Decoded α) :
    Prop :=
  (condition ∧ result = .ok x) ∨ (¬ condition ∧ ∃ e, result = .error e)

namespace Recovers

variable {α : Type} {condition : Prop} {x : α} {result : Decoded α}

theorem exists_ok_iff (hrecovers : Recovers condition x result) :
    (∃ y, result = .ok y) ↔ condition := by
  obtain ⟨hholds, rfl⟩ | ⟨hfails, e, rfl⟩ := hrecovers
  · simp [hholds]
  · simp [hfails]

theorem ok_iff (hrecovers : Recovers condition x result) :
    result = .ok x ↔ condition := by
  obtain ⟨hholds, rfl⟩ | ⟨hfails, e, rfl⟩ := hrecovers
  · simp [hholds]
  · simp [hfails]

end Recovers

/-- Whether every float among atoms is a number. -/
def AllFinite (atoms : List Atom) : Prop :=
  ∀ x, .float x ∈ atoms → x.isFinite

theorem allFinite_append_iff {atoms others : List Atom} :
    AllFinite (atoms ++ others) ↔ AllFinite atoms ∧ AllFinite others := by
  unfold AllFinite
  constructor
  · intro hall
    constructor
    · intro x hx
      exact hall x (List.mem_append_left _ hx)
    · intro x hx
      exact hall x (List.mem_append_right _ hx)
  · rintro ⟨hatoms, hothers⟩ x hx
    exact (List.mem_append.mp hx).elim (hatoms x) (hothers x)

theorem decodeByte_int (b : UInt8) :
    decodeByte (Json.int b.toNat).sorted = .ok b := by
  have hlt : b.toNat < 256 := b.toNat_lt
  simp [decodeByte, Json.sorted, Json.nat?, Decoded.ofOption, hlt]

theorem decodeInt64_int (i : Int64) : decodeInt64 (.int i.toInt) = .ok i := by
  have hrange : Text.inInt64 i.toInt = true :=
    Text.inInt64_iff.mpr ⟨i.le_toInt, i.toInt_lt⟩
  simp [decodeInt64, Json.int?, Decoded.ofOption, hrange]

theorem Atom.ofJson_toJson_of_ne {a : Atom} (hfloat : ∀ x, a ≠ .float x) :
    Atom.ofJson a.toJson.sorted = .ok a := by
  cases a with
  | nil => rfl
  | bool value => rfl
  | int value =>
      have hread := decodeInt64_int value
      simp [Atom.toJson, Json.sorted, Json.sortedMembers, NameMap.insert,
        Atom.ofJson, hread]
  | float value => exact absurd rfl (hfloat value)
  | str text => rfl
  | bytes data =>
      have hread := Json.decodeList_map decodeByte_int data
      rw [Json.sorted] at hread
      simp [Atom.toJson, Json.sorted, Json.sortedMembers, NameMap.insert,
        Atom.ofJson, hread]
  | sym name => rfl

/-- An atom is read back unless it is a float that was written as `null`. -/
theorem Atom.recovers (a : Atom) :
    Recovers (AllFinite [a]) a (Atom.ofJson a.toJson.sorted) := by
  by_cases hfloat : ∃ x, a = .float x
  · obtain ⟨x, rfl⟩ := hfloat
    have hall : AllFinite [.float x] ↔ x.isFinite := by simp [AllFinite]
    unfold Recovers
    rw [hall]
    cases hfinite : x.isFinite with
    | false =>
        refine .inr ⟨by simp, .mismatch, ?_⟩
        rw [Atom.toJson, hfinite]
        rfl
    | true =>
        refine .inl ⟨rfl, ?_⟩
        rw [Atom.toJson, hfinite]
        rfl
  · rw [not_exists] at hfloat
    refine .inl ⟨?_, Atom.ofJson_toJson_of_ne hfloat⟩
    intro x hx
    exact absurd (List.mem_singleton.mp hx).symm (hfloat x)

/-- No atom has a member for a kind. -/
theorem Node.ofJson_atom (a : Atom) :
    ∃ e, Node.ofJson a.toJson.sorted = .error e := by
  cases a <;>
    simp [Atom.toJson, Json.sorted, Json.sortedMembers, NameMap.insert,
      Node.ofJson, Node.ofMembers, NodeFields.node]

theorem Node.sorted_toJson (kind : String) (children : List Child)
    (span : Option Span) :
    (Node.mk kind children span).toJson.sorted =
      .obj ([("children", .arr (Json.sortedItems (Child.toJsonList children))),
        ("kind", .str kind)] ++ spanMember span) := by
  cases span <;> rfl

/-- No node has one member only. -/
theorem Atom.ofJson_node (n : Node) :
    Atom.ofJson n.toJson.sorted = .error .mismatch := by
  obtain ⟨kind, children, span⟩ := n
  rw [Node.sorted_toJson]
  rfl

/-! ### Members of a node, one after the other -/

section Members

variable {fields : NodeFields} {rest : List (String × Json)}

theorem Node.ofMembers_children {items : List Json} {children : List Child}
    (hfirst : fields.children = none)
    (hread : Child.ofJsonList items = .ok children) :
    Node.ofMembers fields (("children", .arr items) :: rest) =
      Node.ofMembers { fields with children := some children } rest := by
  rw [Node.ofMembers, hfirst, hread]
  rfl

theorem Node.ofMembers_kind {kind : String} (hfirst : fields.kind = none) :
    Node.ofMembers fields (("kind", .str kind) :: rest) =
      Node.ofMembers { fields with kind := some kind } rest := by
  rw [Node.ofMembers, hfirst]
  rfl

theorem Node.ofMembers_span {value : Json} {span : Option Span}
    (hfirst : fields.span = none)
    (hread : value.decodeOption Span.ofJson = .ok span) :
    Node.ofMembers fields (("span", value) :: rest) =
      Node.ofMembers { fields with span := some span } rest := by
  rw [Node.ofMembers, hfirst, hread]
  rfl

theorem Node.ofMembers_spanMember (kind : String) (children : List Child)
    (span : Option Span) :
    Node.ofMembers { kind := some kind, children := some children }
      (spanMember span) = .ok (.mk kind children span) := by
  cases span with
  | none =>
      have hmember : spanMember none = [] := rfl
      rw [hmember, Node.ofMembers]
      rfl
  | some span =>
      have hmember : spanMember (some span) = [("span", span.toJson)] := rfl
      rw [hmember, Node.ofMembers_span rfl span.decodeOption_toJson,
        Node.ofMembers]
      rfl

end Members

theorem Node.ofJson_eq_map (kind : String) (children : List Child)
    (span : Option Span) :
    Node.ofJson (Node.mk kind children span).toJson.sorted =
      (Child.ofJsonList (Json.sortedItems (Child.toJsonList children))).map
        fun children => .mk kind children span := by
  rw [Node.sorted_toJson, Node.ofJson]
  cases hlist : Child.ofJsonList
      (Json.sortedItems (Child.toJsonList children)) with
  | error e =>
      rw [List.cons_append, Node.ofMembers, hlist]
      rfl
  | ok read =>
      rw [List.cons_append, Node.ofMembers_children rfl hlist,
        List.cons_append, Node.ofMembers_kind rfl, List.nil_append,
        Node.ofMembers_spanMember]
      rfl

mutual

theorem Node.recovers :
    ∀ n : Node, Recovers (AllFinite n.atoms) n (Node.ofJson n.toJson.sorted)
  | .mk kind children span => by
      unfold Recovers
      rw [Node.ofJson_eq_map, Node.atoms]
      obtain ⟨hfinite, hread⟩ | ⟨hlost, e, hread⟩ :=
        Child.recovers_list children
      · exact .inl ⟨hfinite, by rw [hread]; rfl⟩
      · exact .inr ⟨hlost, e, by rw [hread]; rfl⟩

theorem Child.recovers : ∀ c : Child,
    Recovers (AllFinite c.atoms) c (Child.ofJson c.toJson.sorted)
  | .node n => by
      unfold Recovers
      rw [Child.toJson, Child.atoms, Child.ofJson, Atom.ofJson_node]
      obtain ⟨hfinite, hread⟩ | ⟨hlost, e, hread⟩ := Node.recovers n
      · exact .inl ⟨hfinite, by rw [hread]⟩
      · exact .inr ⟨hlost, .mismatch, by rw [hread]⟩
  | .atom a => by
      obtain ⟨e, hnode⟩ := Node.ofJson_atom a
      unfold Recovers
      rw [Child.toJson, Child.atoms, Child.ofJson, hnode]
      obtain ⟨hfinite, hread⟩ | ⟨hlost, e, hread⟩ := Atom.recovers a
      · exact .inl ⟨hfinite, by rw [hread]⟩
      · exact .inr ⟨hlost, .mismatch, by rw [hread]⟩

theorem Child.recovers_list : ∀ cs : List Child,
    Recovers (AllFinite (Child.atomsList cs)) cs
      (Child.ofJsonList (Json.sortedItems (Child.toJsonList cs)))
  | [] => .inl ⟨fun _ hx => absurd hx List.not_mem_nil, by
      rw [Child.toJsonList, Json.sortedItems_nil, Child.ofJsonList]⟩
  | c :: cs => by
      unfold Recovers
      rw [Child.toJsonList, Json.sortedItems_cons, Child.ofJsonList,
        Child.atomsList, allFinite_append_iff]
      obtain ⟨hfinite, hread⟩ | ⟨hlost, e, hread⟩ := Child.recovers c
      · obtain ⟨hrest, hreadRest⟩ | ⟨hlost, e, hreadRest⟩ :=
          Child.recovers_list cs
        · exact .inl ⟨⟨hfinite, hrest⟩, by rw [hread, hreadRest]⟩
        · exact .inr ⟨fun hboth => hlost hboth.2, e, by rw [hread, hreadRest]⟩
      · exact .inr ⟨fun hboth => hlost hboth.1, e, by rw [hread]⟩

end

/-! ## Trees -/

theorem Comment.ofJson_toJson (comment : Comment) :
    Comment.ofJson comment.toJson.sorted = .ok comment := by
  obtain ⟨text, span⟩ := comment
  cases span with
  | none => rfl
  | some span =>
      have hsorted : (Comment.mk text (some span)).toJson.sorted =
          .obj [("span", span.toJson), ("text", .str text)] := rfl
      rw [hsorted, Comment.ofJson]
      simp [CommentFields.read, Span.decodeOption_toJson]

/-- A root is written as an object, and no object is `null`. -/
theorem Node.decodeOption_toJson (n : Node) :
    n.toJson.sorted.decodeOption Node.ofJson =
      (Node.ofJson n.toJson.sorted).map some := by
  obtain ⟨kind, children, span⟩ := n
  rw [Node.sorted_toJson]
  rfl

theorem decodeComments_toJson (comments : List Comment) :
    decodeComments (Json.arr (comments.map Comment.toJson)).sorted =
      .ok (some comments) := by
  have hread := Json.decodeList_map Comment.ofJson_toJson comments
  rw [Json.sorted] at hread ⊢
  rw [decodeComments, Json.decodeOption, hread]
  · rfl
  · simp

theorem Tree.sorted_toJson (tree : Tree) :
    tree.toJson.sorted = .obj ((tree.comments.toList.map fun comments =>
      ("comments", (Json.arr (comments.map Comment.toJson)).sorted)) ++
        [("root", (Json.ofOption (tree.root.map Node.toJson)).sorted)]) := by
  obtain ⟨root, comments⟩ := tree
  cases comments <;> rfl

theorem Tree.ofJson_eq_map (tree : Tree) :
    Tree.ofJson tree.toJson.sorted =
      ((Json.ofOption (tree.root.map Node.toJson)).sorted.decodeOption
        Node.ofJson).map fun root => ⟨root, tree.comments⟩ := by
  obtain ⟨root, comments⟩ := tree
  rw [Tree.sorted_toJson, Tree.ofJson]
  cases hroot : (Json.ofOption (root.map Node.toJson)).sorted.decodeOption
    Node.ofJson with
  | error e =>
      cases comments <;>
        simp [TreeFields.read, hroot, decodeComments_toJson]
  | ok root =>
      cases comments <;>
        simp [TreeFields.read, hroot, decodeComments_toJson]

/-- A tree is read back as it was, with its places and its comments, unless a
float of it is lost. -/
theorem Tree.recovers (tree : Tree) :
    Recovers (AllFinite tree.atoms) tree (Tree.ofJson tree.toJson.sorted) := by
  obtain ⟨root, comments⟩ := tree
  unfold Recovers
  rw [Tree.ofJson_eq_map]
  cases root with
  | none => exact .inl ⟨by simp [Tree.atoms, AllFinite], rfl⟩
  | some n =>
      have hatoms : Tree.atoms ⟨some n, comments⟩ = n.atoms := by
        simp [Tree.atoms]
      have hroot : Json.ofOption ((some n).map Node.toJson) = n.toJson := rfl
      rw [hatoms, hroot, Node.decodeOption_toJson]
      obtain ⟨hfinite, hread⟩ | ⟨hlost, e, hread⟩ := Node.recovers n
      · exact .inl ⟨hfinite, by rw [hread]; rfl⟩
      · exact .inr ⟨hlost, e, by rw [hread]; rfl⟩

/-! ## Tags -/

namespace NameMap

variable {α : Type} {name tag : String} {value : α} {map : NameMap α}

/-- The names of a map are increasing. -/
def Ordered (map : NameMap α) : Prop :=
  map.Pairwise fun entry other => entry.1 < other.1

theorem insert_cons (n : String) (v : α) (map : NameMap α) :
    insert name value ((n, v) :: map) =
      if name < n then (name, value) :: (n, v) :: map
      else if name = n then (name, value) :: map
      else (n, v) :: insert name value map := rfl

theorem find?_insert_of_ne (hne : name ≠ tag) :
    (insert name value map).find? (·.1 == tag) = map.find? (·.1 == tag) := by
  induction map with
  | nil => simp [insert, hne]
  | cons entry map ih =>
      obtain ⟨n, v⟩ := entry
      rw [insert_cons]
      split_ifs with hlt heq
      · simp [hne]
      · have hn : n ≠ tag := heq ▸ hne
        simp [hne, hn]
      · rw [List.find?_cons, List.find?_cons, ih]

theorem mem_insert {entry : String × α}
    (hmem : entry ∈ insert name value map) :
    entry = (name, value) ∨ entry ∈ map := by
  induction map with
  | nil => simpa [insert] using hmem
  | cons first map ih =>
      obtain ⟨n, v⟩ := first
      rw [insert_cons] at hmem
      split_ifs at hmem <;> grind

theorem Ordered.insert (hordered : Ordered map) :
    Ordered (insert name value map) := by
  induction map with
  | nil => simp [NameMap.insert, Ordered]
  | cons entry map ih =>
      obtain ⟨n, v⟩ := entry
      obtain ⟨hfirst, hrest⟩ := List.pairwise_cons.mp hordered
      rw [insert_cons]
      split_ifs with hlt heq
      · refine List.pairwise_cons.mpr ⟨?_, hordered⟩
        rintro other (_ | ⟨_, hmem⟩)
        · exact hlt
        · exact hlt.trans (hfirst other hmem)
      · exact List.pairwise_cons.mpr ⟨heq ▸ hfirst, hrest⟩
      · refine List.pairwise_cons.mpr ⟨?_, ih hrest⟩
        intro other hmem
        rcases mem_insert hmem with rfl | hmem
        · exact lt_of_le_of_ne (not_lt.mp hlt) (Ne.symm heq)
        · exact hfirst other hmem

theorem filter_insert_of_ne (hne : name ≠ tag) (hordered : Ordered map) :
    (insert name value map).filter (·.1 != tag) =
      insert name value (map.filter (·.1 != tag)) := by
  induction map with
  | nil => simp [insert, hne]
  | cons entry map ih =>
      obtain ⟨n, v⟩ := entry
      obtain ⟨hfirst, hrest⟩ := List.pairwise_cons.mp hordered
      have hlater (hlt : name < n) (map : NameMap α)
          (hmap : ∀ other ∈ map, n < other.1) :
          insert name value map = (name, value) :: map := by
        cases map with
        | nil => rfl
        | cons other map =>
            exact if_pos (hlt.trans (hmap other List.mem_cons_self))
      by_cases htag : n = tag
      · subst htag
        have hdrop :
            ((n, v) :: map).filter (·.1 != n) = map.filter (·.1 != n) := by
          simp
        rw [hdrop]
        rw [insert_cons, if_neg hne]
        split_ifs with hlt
        · rw [hlater hlt _ fun other hmem =>
            hfirst other (List.mem_of_mem_filter hmem)]
          simp [hne]
        · simpa using ih hrest
      · have hkeep (others : NameMap α) :
            ((n, v) :: others).filter (·.1 != tag) =
            (n, v) :: others.filter (·.1 != tag) := by simp [htag]
        rw [hkeep, insert_cons, insert_cons]
        split_ifs with hlt heq
        · simp [hne, htag]
        · simp [hne]
        · rw [hkeep, ih hrest]

end NameMap

namespace Json

theorem find?_sortedMembers {tag : String} {members : List (String × Json)} :
    ∀ {done : NameMap Json}, tag ∉ members.map Prod.fst →
      (sortedMembers members done).find? (·.1 == tag) =
        done.find? (·.1 == tag) := by
  induction members with
  | nil =>
      intro _ _
      rfl
  | cons member members ih =>
      intro done htag
      rw [List.map_cons, List.mem_cons, not_or] at htag
      obtain ⟨hne, hrest⟩ := htag
      rw [sortedMembers, ih hrest, NameMap.find?_insert_of_ne (Ne.symm hne)]

theorem filter_sortedMembers {tag : String} {members : List (String × Json)} :
    ∀ {done : NameMap Json}, done.Ordered → tag ∉ members.map Prod.fst →
      (sortedMembers members done).filter (·.1 != tag) =
        sortedMembers members (done.filter (·.1 != tag)) := by
  induction members with
  | nil =>
      intro _ _ _
      rfl
  | cons member members ih =>
      intro done hordered htag
      rw [List.map_cons, List.mem_cons, not_or] at htag
      obtain ⟨hne, hrest⟩ := htag
      rw [sortedMembers, sortedMembers, ih hordered.insert hrest,
        NameMap.filter_insert_of_ne (Ne.symm hne) hordered]

/-- A tag is found among the other members, and these are left in order. -/
theorem takeTag_sorted {tag : String} {value : Json}
    {members : List (String × Json)} (htag : tag ∉ members.map Prod.fst) :
    takeTag tag (obj ((tag, value) :: members)).sorted =
      .ok (value.sorted, sortedMembers members []) := by
  have hfirst : sortedMembers ((tag, value) :: members) [] =
      sortedMembers members [(tag, value.sorted)] := rfl
  have hlookup :
      lookup? tag (sortedMembers members [(tag, value.sorted)]) =
        some value.sorted := by
    rw [lookup?, find?_sortedMembers htag]
    simp
  have hrest :
      (sortedMembers members [(tag, value.sorted)]).filter (·.1 != tag) =
      sortedMembers members [] := by
    rw [filter_sortedMembers (List.pairwise_singleton ..) htag]
    simp
  rw [sorted_obj, hfirst, takeTag, ← hrest]
  simp [members?, Decoded.ofOption, hlookup]

end Json

/-! ## Errors -/

theorem SyntaxError.sortedMembers_members (e : SyntaxError) :
    Json.sortedMembers e.members [] = [("column", .int e.column),
      ("identification", .str e.identification), ("line", .int e.line),
        ("message", .str e.message)] :=
  rfl

theorem SyntaxError.read_members (e : SyntaxError) :
    SyntaxErrorFields.read {} (Json.sortedMembers e.members []) = .ok e := by
  rw [e.sortedMembers_members]
  simp [SyntaxErrorFields.read]

theorem SyntaxError.ofJson_toJson (e : SyntaxError) :
    SyntaxError.ofJson e.toJson.sorted = .ok e := by
  rw [SyntaxError.toJson, Json.sorted_obj]
  exact e.read_members

namespace PrintError

def cause : PrintError → String
  | unsupported _ => "unsupported"
  | invalidEscape _ _ => "invalid_escape"
  | encoding _ _ => "encoding"
  | other _ => "other"

def fields (e : PrintError) : List (String × Json) :=
  e.members.tail

theorem members_eq (e : PrintError) :
    e.members = ("error", .str e.cause) :: e.fields := by
  cases e <;> rfl

theorem ofMembers_fields (e : PrintError) :
    PrintError.ofMembers e.cause (Json.sortedMembers e.fields []) = .ok e := by
  cases e <;> rfl

theorem takeTag_members (e : PrintError) :
    takeTag "error" (.obj (Json.sortedMembers e.members [])) =
      .ok (.str e.cause, Json.sortedMembers e.fields []) := by
  have htag : "error" ∉ e.fields.map Prod.fst := by
    cases e <;> simp [fields, members]
  rw [← Json.sorted_obj, e.members_eq]
  exact Json.takeTag_sorted htag

theorem ofJson_toJson (e : PrintError) :
    PrintError.ofJson e.toJson.sorted = .ok e := by
  rw [toJson, Json.sorted_obj, PrintError.ofJson, e.takeTag_members]
  exact e.ofMembers_fields

end PrintError

/-- The tag of a stage is taken first, and what is left is an error with its
own tag. -/
theorem StageError.ofJson_toJson (e : StageError) :
    StageError.ofJson e.toJson.sorted = .ok e := by
  cases e with
  | parsing e =>
      have htag : "stage" ∉ e.members.map Prod.fst := by
        simp [SyntaxError.members]
      rw [toJson, StageError.ofJson, Json.takeTag_sorted htag]
      have hread := e.read_members
      simp [Json.sorted, hread]
  | printing e =>
      have htag : "stage" ∉ e.members.map Prod.fst := by
        cases e <;> simp [PrintError.members]
      have hread := e.ofMembers_fields
      rw [toJson, StageError.ofJson, Json.takeTag_sorted htag]
      simp [Json.sorted, e.takeTag_members, nestedCause, hread]
  | reparsing e =>
      have htag : "stage" ∉ e.members.map Prod.fst := by
        simp [SyntaxError.members]
      have hread := e.read_members
      rw [toJson, StageError.ofJson, Json.takeTag_sorted htag]
      simp [Json.sorted, hread]

/-- What is read back from the JSON forms of trees and errors. -/
theorem ofJson_toJson_lossless :
    (∀ tree : Tree,
      ((∃ read, Tree.ofJson tree.toJson.sorted = .ok read) ↔
        AllFinite tree.atoms) ∧
        (Tree.ofJson tree.toJson.sorted = .ok tree ↔ AllFinite tree.atoms)) ∧
      (∀ e : PrintError, PrintError.ofJson e.toJson.sorted = .ok e) ∧
      (∀ e : SyntaxError, SyntaxError.ofJson e.toJson.sorted = .ok e) ∧
      ∀ e : StageError, StageError.ofJson e.toJson.sorted = .ok e := by
  refine ⟨?_, PrintError.ofJson_toJson, SyntaxError.ofJson_toJson,
    StageError.ofJson_toJson⟩
  intro tree
  exact ⟨tree.recovers.exists_ok_iff, tree.recovers.ok_iff⟩

end Reparse
