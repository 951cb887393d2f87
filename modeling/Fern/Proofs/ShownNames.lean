import Fern.Proofs.GrammarTrees
import Fern.Proofs.MarkedLines

/-!
# Names in displayed trees

The display of a tree takes every pair that begins with a word in capitals for a node, and it is
not told which words are names. So the names of variants and of fields, which pairs begin with, must
not look like tags. This is all that can go wrong: the display of any other tree is the one by its
marks, where the names stand between quotes and have no part in the layout.

That a name was taken for a tag is seen from the quotes: the display by marks has two more of them
for each pair that is taken for a node.

Main statement: `names_are_shown_iff`.
-/

namespace Fern

/-! ## Layouts -/

theorem Leaf.outline_toDatum (l : Leaf) (depth : Nat) :
    l.toDatum.outline depth = Datum.indentation depth ++ l.toDatum.inline := by
  cases l <;> rfl

namespace Marked

theorem isCompound_toDatum (m : Marked) : m.toDatum.isCompound = m.leaf?.isNone := by
  cases m with
  | leaf l => cases l <;> rfl
  | node | group | list | record => rfl

theorem outlineAll_eq_map (depth : Nat) (items : List Marked) :
    Datum.outlineAll depth (allToDatum items) =
      items.map fun item => item.toDatum.outline depth := by
  induction items with
  | nil => rfl
  | cons item rest ih => rw [allToDatum, Datum.outlineAll, List.map_cons, ih]

theorem outlineEntries_eq_map (depth : Nat) (entries : List (Key × Marked)) :
    Datum.outlineEntries depth (entriesToDatum entries) = entries.map fun entry =>
      Datum.indentation depth ++ (Piece.key entry.1).text ++ "\n" ++
        entry.2.toDatum.outline (depth + 1) := by
  induction entries with
  | nil => rfl
  | cons entry rest ih =>
      have hbreak : ":\n" = ":" ++ "\n" := by decide
      rw [entriesToDatum, Datum.outlineEntries, List.map_cons, ih, hbreak, Piece.text]
      simp only [String.append_assoc]

theorem outline_list (depth : Nat) (items : List Marked) :
    (list items).toDatum.outline depth =
      if items.isEmpty then Datum.indentation depth ++ "[]"
      else "\n".intercalate (items.map fun item => item.toDatum.outline depth) := by
  rw [toDatum, Datum.outline, outlineAll_eq_map]
  cases items <;> rfl

theorem outline_record (depth : Nat) (key : Key) (value : Marked) (rest : List (Key × Marked)) :
    (record key value rest).toDatum.outline depth =
      "\n".intercalate (((key, value) :: rest).map fun entry => Datum.indentation depth ++
        (Piece.key entry.1).text ++ "\n" ++ entry.2.toDatum.outline (depth + 1)) := by
  rw [← outlineEntries_eq_map]
  exact Datum.outline.eq_def _ _

theorem head?_eq_some {items : List Marked} {word : String} (h : (group items).head? = some word) :
    ∃ l content, items = [.leaf l, content] ∧ l.text? = some word := by
  unfold head? at h
  split at h
  · next heq =>
    cases heq
    exact ⟨_, _, rfl, h⟩
  · cases h

theorem head?_of_toDatum {items : List Marked} {word : String} {content : Datum}
    (h : allToDatum items = [.text word, content]) : (group items).head? = some word := by
  cases items with
  | nil => cases h
  | cons first rest =>
      rw [allToDatum] at h
      obtain ⟨hfirst, hrest⟩ := List.cons.inj h
      obtain ⟨second, rfl⟩ : ∃ second, rest = [second] := by
        cases rest with
        | nil => cases hrest
        | cons second rest =>
            cases rest with
            | nil => exact ⟨second, rfl⟩
            | cons => cases (List.cons.inj hrest).2
      cases first with
      | leaf l =>
          cases l with
          | name | word =>
              cases hfirst
              rfl
          | int | bool | none => cases hfirst
      | node | group | list | record => cases hfirst

/-- A group that is taken for no node is laid out as a list. -/
theorem outline_group {items : List Marked} (depth : Nat)
    (h : ∀ word ∈ (group items).head?, ¬Datum.isTag word) :
    (group items).toDatum.outline depth = (list items).toDatum.outline depth := by
  have hlist : (Datum.list (allToDatum items)).outline depth =
      if (allToDatum items).isEmpty then Datum.indentation depth ++ "[]"
      else "\n".intercalate (Datum.outlineAll depth (allToDatum items)) := Datum.outline.eq_def _ _
  rw [toDatum, toDatum, hlist]
  by_cases hpair : ∃ word content, allToDatum items = [.text word, content]
  · -- The word and what stands behind it are laid out like the two members of a list.
    obtain ⟨word, content, hitems⟩ := hpair
    have hword := h word (head?_of_toDatum hitems)
    rw [hitems, Datum.outline, if_neg hword, Datum.outlineAll, Datum.outlineAll, Datum.outlineAll,
      List.isEmpty_cons, if_neg Bool.false_ne_true, String.intercalate_cons_cons,
      String.intercalate_singleton]
    rfl
  · exact Datum.outline.eq_2 _ _ fun word content hitems => hpair ⟨word, content, hitems⟩

theorem outline_node (tag : NodeTag) (content : Marked) (depth : Nat) :
    (node tag content).toDatum.outline depth =
      if content.leaf?.isNone then
        Datum.indentation depth ++ tag.text ++ "\n" ++ content.toDatum.outline (depth + 1)
      else Datum.indentation depth ++ tag.text ++ " " ++ content.toDatum.inline := by
  rw [toDatum, Datum.node, Datum.outline, if_pos tag.isTag_text, isCompound_toDatum]

/-- A pair that is taken for a node is laid out as one. -/
theorem outline_pair {l : Leaf} {word : String} (hword : l.text? = some word)
    (htag : Datum.isTag word) (content : Marked) (depth : Nat) :
    (group [.leaf l, content]).toDatum.outline depth =
      if content.leaf?.isNone then
        Datum.indentation depth ++ word ++ "\n" ++ content.toDatum.outline (depth + 1)
      else Datum.indentation depth ++ word ++ " " ++ content.toDatum.inline := by
  have hl : l.toDatum = .text word := by
    cases l with
    | name | word =>
        cases hword
        rfl
    | int | bool | none => cases hword
  rw [toDatum, allToDatum, allToDatum, allToDatum, toDatum, hl, Datum.outline, if_pos htag,
    isCompound_toDatum]

/-! ## Trees without words that look like tags -/

/-- Nothing is taken for a node but nodes. -/
def HasOnlyNodes (m : Marked) : Prop := ∀ word ∈ m.heads, ¬Datum.isTag word

theorem HasOnlyNodes.here {m : Marked} (h : m.HasOnlyNodes) :
    ∀ word ∈ m.head?, ¬Datum.isTag word := by
  intro word hword
  refine h word ?_
  rw [heads, collect_eq]
  exact List.mem_append_left _ (Option.mem_toList.2 hword)

theorem HasOnlyNodes.part {m part : Marked} (h : m.HasOnlyNodes) (hm : part ∈ m.parts) :
    part.HasOnlyNodes := by
  intro word hword
  refine h word ?_
  rw [heads, collect_eq]
  exact List.mem_append_right _ (List.mem_flatMap_of_mem hm hword)

/-- The members of a list are shown one after the other. -/
theorem lines_outline_list {items : List Marked} {depth : Nat}
    (h : ∀ item ∈ items,
      Text.lines (item.toDatum.outline depth).toList = Line.texts (item.lines depth)) :
    Text.lines ((list items).toDatum.outline depth).toList =
      Line.texts ((list items).lines depth) := by
  rw [outline_list, lines]
  split
  · exact Line.lines_singleton depth .nothing
  · next hne =>
    have hne : items.map (fun item => item.toDatum.outline depth) ≠ [] := by simpa using hne
    rw [Text.lines_intercalate_all hne, allLines_eq_flatMap, Line.texts, List.map_flatMap,
      List.flatMap_map]
    exact List.flatMap_congr h

/-- If nothing is taken for a node but nodes, a tree is displayed by its marks. -/
theorem lines_outline {m : Marked} (h : m.HasOnlyNodes) (depth : Nat) :
    Text.lines (m.toDatum.outline depth).toList = Line.texts (m.lines depth) := by
  induction m using induct generalizing depth with
  | whole m ih =>
    have below {part : Marked} (hm : part ∈ m.parts) (depth : Nat) :
        Text.lines (part.toDatum.outline depth).toList = Line.texts (part.lines depth) :=
      ih part hm (h.part hm) depth
    cases m with
    | leaf l =>
        rw [toDatum, l.outline_toDatum]
        exact Line.lines_singleton depth (.leaf l)
    | node tag content =>
        rw [outline_node]
        cases hl : content.leaf? with
        | none =>
            have hcontent := below (List.mem_singleton.2 rfl) (depth + 1)
            rw [Option.isNone_none, if_pos rfl, Text.lines_append_newline, hcontent, lines_node hl,
              Line.texts_cons]
            exact congrArg (· ++ _) (Line.lines_singleton depth (.tag tag))
        | some l =>
            cases leaf?_eq_some hl
            exact Line.lines_pair depth (.tag tag) (.leaf l)
    | group items =>
        rw [outline_group depth h.here]
        exact lines_outline_list fun item hm => below hm depth
    | list items => exact lines_outline_list fun item hm => below hm depth
    | record key value rest =>
        have hentry : ∀ entry ∈ (key, value) :: rest,
            Text.lines (entry.2.toDatum.outline (depth + 1)).toList =
              Line.texts (entry.2.lines (depth + 1)) :=
          fun entry hm => below (List.mem_map_of_mem hm) (depth + 1)
        rw [outline_record, Text.lines_intercalate_all (by simp), lines_record, Line.texts,
          List.map_flatMap, List.flatMap_map]
        refine List.flatMap_congr fun entry hm => ?_
        rw [Text.lines_append_newline, hentry entry hm]
        exact congrArg (· ++ _) (Line.lines_singleton depth (.key entry.1))

end Marked

/-! ## Quotes that are lost -/

theorem quotes_indentation (depth : Nat) : Text.quotes (Datum.indentation depth) = 0 := by
  rw [Text.quotes, Datum.indentation, String.toList_ofList, List.countP_replicate]
  rfl

namespace Line

/-- How many quotes there are in lines. -/
def quotes (lines : List Line) : Nat := (lines.map fun line => Text.quotes line.text).sum

theorem quotes_append (lines behind : List Line) :
    quotes (lines ++ behind) = quotes lines + quotes behind := by
  rw [quotes, List.map_append, List.sum_append]
  rfl

theorem quotes_flatMap {α : Type} (items : List α) (f : α → List Line) :
    quotes (items.flatMap f) = (items.map fun item => quotes (f item)).sum := by
  induction items with
  | nil => rfl
  | cons item rest ih => rw [List.flatMap_cons, quotes_append, ih, List.map_cons, List.sum_cons]

theorem quotes_singleton (depth : Nat) (piece : Piece) :
    quotes [⟨depth, [piece]⟩] = Text.quotes piece.text := by
  rw [quotes, List.map_singleton, List.sum_singleton, text_singleton, Text.quotes_append,
    quotes_indentation, Nat.zero_add]

theorem quotes_pair (depth : Nat) (first second : Piece) :
    quotes [⟨depth, [first, second]⟩] = Text.quotes first.text + Text.quotes second.text := by
  rw [quotes, List.map_singleton, List.sum_singleton, text_pair]
  simp only [Text.quotes_append, quotes_indentation, Nat.zero_add]
  rfl

end Line

theorem NodeTag.quotes_text (tag : NodeTag) : Text.quotes tag.text = 0 := by cases tag <;> rfl

theorem Key.quotes_text (key : Key) : Text.quotes (Piece.key key).text = 0 := by cases key <;> rfl

namespace Marked

/-- How many pairs are taken for nodes because of the words they begin with. -/
def tagged (m : Marked) : Nat := m.heads.countP Datum.isTag

theorem tagged_eq (m : Marked) :
    m.tagged = m.head?.toList.countP Datum.isTag + (m.parts.map tagged).sum := by
  rw [tagged, heads, collect_eq, List.countP_append, List.countP_flatMap]
  rfl

theorem tagged_eq_zero_iff {m : Marked} : m.tagged = 0 ↔ m.HasOnlyNodes := List.countP_eq_zero

theorem tagged_eq_sum {m : Marked} (h : m.head?.toList.countP Datum.isTag = 0) :
    m.tagged = (m.parts.map tagged).sum := by
  rw [tagged_eq, h, Nat.zero_add]

/-- In a display two quotes at least are missing for each pair that is taken for a node. -/
def LosesQuotes (m : Marked) : Prop :=
  ∀ depth depth', Text.quotes (m.toDatum.outline depth) + 2 * m.tagged ≤
    Line.quotes (m.lines depth')

/-- What is lost in parts is lost in them together. -/
theorem sum_add_le {α : Type} {items : List α} {shown lost marked : α → Nat}
    (h : ∀ item ∈ items, shown item + 2 * lost item ≤ marked item) :
    (items.map shown).sum + 2 * (items.map lost).sum ≤ (items.map marked).sum := by
  induction items with
  | nil => exact Nat.le_refl _
  | cons item rest ih =>
      obtain ⟨hitem, hrest⟩ := List.forall_mem_cons.1 h
      have := ih hrest
      simp only [List.map_cons, List.sum_cons]
      omega

/-- The quotes of a node are those of its tag and of its content. -/
theorem quotes_node (tag : String) (content : Marked) (depth : Nat) :
    Text.quotes (if content.leaf?.isNone then
        Datum.indentation depth ++ tag ++ "\n" ++ content.toDatum.outline (depth + 1)
      else Datum.indentation depth ++ tag ++ " " ++ content.toDatum.inline) =
    Text.quotes tag + Text.quotes (content.toDatum.outline (depth + 1)) := by
  cases hl : content.leaf? with
  | none =>
      simp only [Option.isNone_none, if_true, Text.quotes_append, quotes_indentation, Nat.zero_add]
      rfl
  | some l =>
      cases leaf?_eq_some hl
      rw [toDatum, l.outline_toDatum]
      simp only [Option.isNone_some, Bool.false_eq_true, if_false, Text.quotes_append,
        quotes_indentation, Nat.zero_add]
      rfl

theorem quotes_lines_node (tag : NodeTag) (content : Marked) (depth : Nat) :
    Line.quotes ((node tag content).lines depth) = Line.quotes (content.lines (depth + 1)) := by
  cases hl : content.leaf? with
  | none =>
      rw [lines_node hl, ← List.singleton_append, Line.quotes_append, Line.quotes_singleton,
        Piece.text, tag.quotes_text, Nat.zero_add]
  | some l =>
      cases leaf?_eq_some hl
      refine (Line.quotes_pair depth (.tag tag) (.leaf l)).trans ?_
      rw [Piece.text, tag.quotes_text, Nat.zero_add, lines, Line.quotes_singleton]

theorem quotes_outline_list (items : List Marked) (depth : Nat) :
    Text.quotes ((list items).toDatum.outline depth) =
      (items.map fun item => Text.quotes (item.toDatum.outline depth)).sum := by
  rw [outline_list]
  cases items with
  | nil => exact (Text.quotes_append _ _).trans (congrArg (· + 0) (quotes_indentation depth))
  | cons item rest =>
      rw [List.isEmpty_cons, if_neg Bool.false_ne_true, Text.quotes_intercalate, List.map_map]
      rfl

theorem quotes_lines_list (items : List Marked) (depth : Nat) :
    Line.quotes ((list items).lines depth) =
      (items.map fun item => Line.quotes (item.lines depth)).sum := by
  rw [lines, allLines_eq_flatMap]
  cases items with
  | nil => exact Line.quotes_singleton depth .nothing
  | cons item rest => exact Line.quotes_flatMap _ _

namespace LosesQuotes

theorem leaf (l : Leaf) : (leaf l).LosesQuotes := by
  intro depth depth'
  rw [toDatum, l.outline_toDatum, Text.quotes_append, quotes_indentation, Nat.zero_add, lines,
    Line.quotes_singleton]
  exact Nat.le_refl _

theorem node {content : Marked} (h : content.LosesQuotes) (tag : NodeTag) :
    (node tag content).LosesQuotes := by
  intro depth depth'
  have htagged : (Marked.node tag content).tagged = content.tagged := by
    rw [tagged_eq_sum rfl, parts, List.map_singleton, List.sum_singleton]
  rw [outline_node, quotes_node, tag.quotes_text, quotes_lines_node, Nat.zero_add, htagged]
  exact h (depth + 1) (depth' + 1)

theorem list {items : List Marked} (h : ∀ item ∈ items, item.LosesQuotes) :
    (list items).LosesQuotes := by
  intro depth depth'
  rw [quotes_outline_list, quotes_lines_list, tagged_eq_sum rfl]
  exact sum_add_le fun item hm => h item hm depth depth'

/-- The word of a pair that is taken for a node is shown without its quotes. -/
theorem pair {l : Leaf} {word : String} (hword : l.text? = some word) (htag : Datum.isTag word)
    {content : Marked} (h : content.LosesQuotes) : (group [.leaf l, content]).LosesQuotes := by
  intro depth depth'
  have hcontent := h (depth + 1) depth'
  have hquoted : Text.quotes word + 2 ≤ Text.quotes (Piece.leaf l).text := by
    rw [Piece.text, Leaf.inline_of_text? hword]
    exact Text.quotes_quoted word
  have hlines : (group [.leaf l, content]).lines depth' =
      [⟨depth', [.leaf l]⟩] ++ content.lines depth' := by
    rw [lines, allLines_eq_flatMap, List.flatMap_cons, List.flatMap_singleton, lines]
    rfl
  have htagged : (group [.leaf l, content]).tagged = 1 + content.tagged := by
    have hleaf : (Marked.leaf l).tagged = 0 := rfl
    rw [tagged_eq, head?, hword, Option.toList_some, List.countP_singleton, if_pos htag, parts,
      List.map_cons, List.map_singleton, List.sum_cons, List.sum_singleton, hleaf, Nat.zero_add]
  rw [outline_pair hword htag, quotes_node, hlines, Line.quotes_append, Line.quotes_singleton,
    htagged]
  omega

theorem group {items : List Marked} (h : ∀ item ∈ items, item.LosesQuotes) :
    (group items).LosesQuotes := by
  by_cases hhead : ∀ word ∈ (Marked.group items).head?, ¬Datum.isTag word
  · intro depth depth'
    have hzero : (Marked.group items).head?.toList.countP Datum.isTag = 0 :=
      List.countP_eq_zero.2 fun word hm => hhead word (Option.mem_toList.1 hm)
    have hlist : (Marked.list items).tagged = (items.map tagged).sum := tagged_eq_sum rfl
    have htagged : (Marked.group items).tagged = (Marked.list items).tagged :=
      (tagged_eq_sum hzero).trans hlist.symm
    rw [outline_group depth hhead, htagged]
    exact list h depth depth'
  · obtain ⟨word, hword, htag⟩ :
        ∃ word, (Marked.group items).head? = some word ∧ Datum.isTag word := by
      simpa using hhead
    obtain ⟨l, content, rfl, hl⟩ := head?_eq_some hword
    exact pair hl htag (h content (List.mem_cons_of_mem _ List.mem_cons_self))

theorem record {key : Key} {value : Marked} {rest : List (Key × Marked)}
    (h : ∀ entry ∈ (key, value) :: rest, entry.2.LosesQuotes) :
    (record key value rest).LosesQuotes := by
  intro depth depth'
  have hbreak : Text.quotes "\n" = 0 := rfl
  have htagged : (Marked.record key value rest).tagged =
      (((key, value) :: rest).map fun entry => entry.2.tagged).sum := by
    have hparts : (Marked.record key value rest).parts = ((key, value) :: rest).map (·.2) := rfl
    rw [tagged_eq_sum rfl, hparts, List.map_map]
    rfl
  rw [outline_record, Text.quotes_intercalate, lines_record, Line.quotes_flatMap, htagged,
    List.map_map]
  refine sum_add_le fun entry hm => ?_
  have hentry := h entry hm (depth + 1) (depth' + 1)
  rw [← List.singleton_append, Line.quotes_append, Line.quotes_singleton, Key.quotes_text]
  simp only [Function.comp_apply, Text.quotes_append, quotes_indentation, Key.quotes_text, hbreak]
  omega

end LosesQuotes

theorem losesQuotes (m : Marked) : m.LosesQuotes := by
  induction m using induct with
  | whole m ih =>
    cases m with
    | leaf l => exact .leaf l
    | node tag content => exact .node (ih content (List.mem_singleton.2 rfl)) tag
    | group items => exact .group ih
    | list items => exact .list ih
    | record key value rest =>
        exact .record fun entry hm => ih entry.2 (List.mem_map_of_mem hm)

/-- A tree is displayed by its marks only if nothing is taken for a node but nodes. -/
theorem hasOnlyNodes_of_lines {m : Marked} {depth : Nat}
    (h : Text.lines (m.toDatum.outline depth).toList = Line.texts (m.lines depth)) :
    m.HasOnlyNodes := by
  -- Quotes are counted line by line, so with the same lines none of them is missing.
  have hquotes : Text.quotes (m.toDatum.outline depth) = Line.quotes (m.lines depth) := by
    rw [Text.quotes, ← Text.countP_lines, h, Line.texts, List.map_map]
    rfl
  have hle := m.losesQuotes depth depth
  refine tagged_eq_zero_iff.1 ?_
  omega

end Marked

/-! ## Names in displayed trees -/

/-- A text shows a tree with its names as names: its lines are those of the display by marks. All
names of the tree stand in them, each one quoted, and whatever else looks like a tag is one or is
quoted. -/
structure Marked.IsShownBy (m : Marked) (depth : Nat) (text : String) : Prop where
  lines : Text.lines text.toList = Line.texts (m.lines depth)
  names : (m.lines depth).flatMap Line.names = m.names
  quoted : ∀ line ∈ m.lines depth, ∀ piece ∈ line.pieces, ∀ name ∈ piece.name?,
    piece.text = Text.quoted name
  tags : ∀ line ∈ m.lines depth, ∀ piece ∈ line.pieces, Datum.isTag piece.text →
    (∃ t, piece = .tag t) ∨ ∃ word, piece.text = Text.quoted word

namespace ReadTree

variable {m : Marked} {datum : Datum}

theorem hasOnlyNodes_iff (h : ReadTree m datum) :
    m.HasOnlyNodes ↔ ∀ name ∈ m.memberNames, ¬Datum.isTag name := by
  rw [Marked.HasOnlyNodes, show m.heads = m.memberNames from h.pairsAreMembers]

theorem isShownBy_iff (h : ReadTree m datum) (depth : Nat) :
    m.IsShownBy depth (datum.outline depth) ↔ ∀ name ∈ m.memberNames, ¬Datum.isTag name := by
  rw [← h.hasOnlyNodes_iff, ← h.toDatum_eq]
  constructor
  · exact fun hshown => Marked.hasOnlyNodes_of_lines hshown.lines
  · exact fun honly => ⟨Marked.lines_outline honly depth, m.names_lines depth,
      fun _ _ _ _ _ => Piece.text_of_name?, fun _ _ _ _ => Piece.isTag_text⟩

end ReadTree

/-- The display of a tree that was read shows names as names exactly if no name of a variant and of
a field, where it is declared or given in a record literal, reads as a tag. If a tree has other
names and is the same otherwise, its display has the same lines up to names. -/
theorem names_are_shown_iff {m : Marked} {datum : Datum} (h : ReadTree m datum) (depth : Nat) :
    (m.IsShownBy depth (datum.outline depth) ↔ ∀ name ∈ m.memberNames, ¬Datum.isTag name) ∧
    ∀ m' datum', ReadTree m' datum' → m'.unnamed = m.unnamed →
      (∀ name ∈ m.memberNames ++ m'.memberNames, ¬Datum.isTag name) →
      m.IsShownBy depth (datum.outline depth) ∧ m'.IsShownBy depth (datum'.outline depth) ∧
        (m'.lines depth).map Line.unnamed = (m.lines depth).map Line.unnamed := by
  refine ⟨h.isShownBy_iff depth, fun m' datum' h' hsame hmembers => ?_⟩
  obtain ⟨hm, hm'⟩ := List.forall_mem_append.1 hmembers
  refine ⟨(h.isShownBy_iff depth).2 hm, (h'.isShownBy_iff depth).2 hm', ?_⟩
  rw [← m.lines_unnamed, ← m'.lines_unnamed, hsame]

/-- Two types of two variants each, which differ in names only. -/
theorem names_are_shown_iff_light :
    let light := Declaration.type ⟨"Light", .sum [⟨"Red", none⟩, ⟨"Green", some (.name "Int")⟩]⟩
    let lamp := Declaration.type ⟨"Lamp", .sum [⟨"Off", none⟩, ⟨"On", some (.name "OFF")⟩]⟩
    Syntax.parseProgram "type Light = Red | Green Int. type Lamp = Off | On OFF." =
        .ok [light, lamp] ∧
      (∀ name ∈ light.marked.memberNames ++ lamp.marked.memberNames, ¬Datum.isTag name) ∧
      light.marked.IsShownBy 0 (light.toDatum.outline 0) ∧
      lamp.marked.IsShownBy 0 (lamp.toDatum.outline 0) ∧
      (lamp.marked.lines 0).map Line.unnamed = (light.marked.lines 0).map Line.unnamed := by
  intro light lamp
  have hread : Syntax.parseProgram "type Light = Red | Green Int. type Lamp = Off | On OFF." =
      .ok [light, lamp] := rfl
  have hlight : ReadTree light.marked light.toDatum := .declaration ⟨_, _, hread, by simp⟩
  have hlamp : ReadTree lamp.marked lamp.toDatum := .declaration ⟨_, _, hread, by simp⟩
  have hmembers : ∀ name ∈ light.marked.memberNames ++ lamp.marked.memberNames,
      ¬Datum.isTag name := by decide
  exact ⟨hread, hmembers, (names_are_shown_iff hlight 0).2 _ _ hlamp rfl hmembers⟩

/-- A name in capitals is taken for a tag: it is shown without quotes, and on the line of what
stands behind it. -/
theorem capitals_are_shown_as_tag :
    let light := Declaration.type ⟨"Light", .sum [⟨"RED", none⟩, ⟨"Green", none⟩]⟩
    Syntax.parseProgram "type Light = RED | Green." = .ok [light] ∧
      light.marked.names = ["Light", "RED", "Green"] ∧
      light.toDatum.outline 0 = "\n".intercalate ["TYPE_DEF", "  name:", "    'Light'", "  body:",
        "    SUM_TYPE", "      VARIANT_DECL", "        RED None", "      VARIANT_DECL",
        "        'Green'", "        None"] ∧
      ¬light.marked.IsShownBy 0 (light.toDatum.outline 0) := by
  intro light
  have hread : Syntax.parseProgram "type Light = RED | Green." = .ok [light] := rfl
  have hlight : ReadTree light.marked light.toDatum := .declaration ⟨_, _, hread, by simp⟩
  refine ⟨hread, rfl, by decide +kernel, fun hshown => ?_⟩
  exact (hlight.isShownBy_iff 0).1 hshown "RED" (by decide) (by decide)

end Fern
