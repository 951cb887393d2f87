import Fern.Proofs.ConsistentTypes
import Fern.Proofs.DisplayedData

/-!
# Displayed types read back

The display of what a written type stands for is the text of that written type, except for one
name. A tuple is displayed by its items whatever their number, so a declared type of the name
`Tuple`, which has no parameters, is displayed like a tuple without items. No such tuple can be
written: there is no reading of `()`, and the reading of a type around it stops in front of it or
in front of the arrow before it. A declared type of the name `Function` is told from functions by
its parameters, and the parentheses that it gets on the left of an arrow do not matter.
-/

namespace Fern

open Syntax Fern.Parser

/-! ## Characters of displayed types -/

namespace TypeInfo

theorem formatAll_eq_map (types : List TypeInfo) : formatAll types = types.map format := by
  induction types with
  | nil => rfl
  | cons type rest ih => rw [formatAll, List.map_cons, ih]

theorem format_tuple (types : List TypeInfo) :
    (tuple types).format = "(" ++ ", ".intercalate (types.map format) ++ ")" := by
  rw [tuple, format.eq_def, ← formatAll_eq_map]
  exact if_pos rfl

end TypeInfo

namespace TypeTerm

mutual

/-- The type that a written type stands for where its names are known. -/
def info : TypeTerm → TypeInfo
  | .name n => .named n []
  | .tuple items => .tuple (allInfo items)
  | .function param result => .function param.info result.info
  | .other _ _ => .unknown

def allInfo : List TypeTerm → List TypeInfo
  | [] => []
  | t :: rest => t.info :: allInfo rest

end

theorem allInfo_eq_map (ts : List TypeTerm) : allInfo ts = ts.map info := by
  induction ts with
  | nil => rfl
  | cons t rest ih => rw [allInfo, List.map_cons, ih]

mutual

/-- What a written type means does not depend on which names are known, as long as its own are. -/
theorem info_of_resolve {known : List String} {t : TypeTerm} {type : TypeInfo}
    (h : t.resolve known = .ok type) : type = t.info := by
  match t with
  | .name n =>
      rw [TypeTerm.resolve] at h
      split at h
      · cases h
        rfl
      · cases h
  | .tuple items =>
      simp only [TypeTerm.resolve, bind_eq_ok, pure_eq_ok] at h
      obtain ⟨types, htypes, rfl⟩ := h
      rw [info, allInfo_of_resolveAll htypes]
  | .function param result =>
      simp only [TypeTerm.resolve, bind_eq_ok, pure_eq_ok] at h
      obtain ⟨p, hp, r, hr, rfl⟩ := h
      rw [info, info_of_resolve hp, info_of_resolve hr]
  | .other _ _ => cases h

theorem allInfo_of_resolveAll {known : List String} {ts : List TypeTerm} {types : List TypeInfo}
    (h : TypeTerm.resolveAll known ts = .ok types) : types = allInfo ts := by
  match ts with
  | [] =>
      cases h
      rfl
  | t :: rest =>
      simp only [TypeTerm.resolveAll, bind_eq_ok, pure_eq_ok] at h
      obtain ⟨type, htype, others, hothers, rfl⟩ := h
      rw [allInfo, info_of_resolve htype, allInfo_of_resolveAll hothers]

end

/-- The characters that what a written type stands for is displayed by. -/
def chars (t : TypeTerm) : List Char := t.info.format.toList

/-- The same on the left of an arrow. -/
def paramChars (t : TypeTerm) : List Char :=
  if t.info.name? = some "Function" then '(' :: t.chars ++ [')'] else t.chars

theorem chars_name {n : String} (h : n ≠ "Tuple") : (name n).chars = n.toList := by
  rw [chars, info, TypeInfo.format.eq_def]
  exact congrArg String.toList ((if_neg h).trans (ite_self _))

theorem chars_name_tuple : (name "Tuple").chars = ['(', ')'] := by decide +kernel

theorem chars_tuple (items : List TypeTerm) :
    (tuple items).chars = '(' :: commaSeparated (items.map chars) ++ [')'] := by
  rw [chars, info, TypeInfo.format_tuple, allInfo_eq_map, String.toList_append,
    String.toList_append, Value.commaSeparated_eq, List.map_map, List.map_map]
  rfl

theorem chars_function (param result : TypeTerm) :
    (function param result).chars =
      param.paramChars ++ ' ' :: '-' :: '>' :: ' ' :: result.chars := by
  have hname : "Function" ≠ "Tuple" := by decide
  rw [chars, info, TypeInfo.function, TypeInfo.format, if_neg hname, if_pos rfl,
    String.toList_append, String.toList_append, List.append_assoc, paramChars]
  congr 1
  split
  · rw [String.toList_append, String.toList_append]
    rfl
  · rfl

end TypeTerm

/-! ## Reading displayed types -/

namespace Parser

section Types

variable {bound : Nat} {inner : Parser TypeTerm} {previous : Option Char} {rest : List Char}

theorem typeAtom_skips : Skips (typeAtom bound inner) :=
  (skips_token _).bind.orElse (skips_token _).bind

theorem typeTerm_skips (bound : Nat) : Skips (typeTerm bound) := by
  cases bound with
  | zero => exact fun _ => rfl
  | succ bound => exact typeAtom_skips.bind

theorem typeAtom_of_isCapital {name : String} (h : IsCapital name)
    (hrest : ∀ d ∈ rest.head?, isNameChar d = false) (previous : Option Char) :
    ∃ last, typeAtom bound inner ⟨previous, name.toList ++ rest⟩ =
      some (.name name, ⟨last, rest⟩) := by
  obtain ⟨last, hword⟩ := word_eq_of_beginsAs previous h hrest
  obtain ⟨c, others, hname, hc, -⟩ := h
  have hvisible := @Word.Kind.not_blank_of_opens .constructor c hc
  rw [hname, List.cons_append] at hword ⊢
  have hread : constructorName ⟨previous, c :: (others ++ rest)⟩ =
      some (name, ⟨some last, rest⟩) := by
    rw [constructorName, token, skip_cons_of_visible hvisible, hword]
  exact ⟨some last, orElse_of_some ((bind_of_some hread).trans rfl)⟩

/-- Behind an opening parenthesis there are types with commas between them. -/
theorem typeAtom_parenthesis (rest : List Char) :
    typeAtom bound inner ⟨previous, '(' :: rest⟩ =
      (do let items ← separated inner (symbol ",") bound
          symbol ")"
          return parenthesizedType items : Parser TypeTerm) ⟨some '(', rest⟩ := by
  have hname : (do return .name (← constructorName) : Parser TypeTerm) ⟨previous, '(' :: rest⟩ =
      none := (word_opens _ _).bind.visible (by decide) (by decide) _ _
  have hopen : symbol "(" ⟨previous, '(' :: rest⟩ = some ((), ⟨some '(', rest⟩) := rfl
  rw [typeAtom, orElse_of_none hname]
  exact bind_of_some hopen

theorem typeAtom_of_texts {first : TypeTerm} {others : List TypeTerm}
    {write : TypeTerm → List Char} (hskips : Skips inner)
    (h : ∀ item ∈ first :: others, ReadsText inner item (write item)) (hb : others.length ≤ bound)
    (previous : Option Char) (rest : List Char) :
    typeAtom bound inner
      ⟨previous, '(' :: (commaSeparated ((first :: others).map write) ++ ')' :: rest)⟩ =
        some (parenthesizedType (first :: others), ⟨some ')', rest⟩) := by
  obtain ⟨last, hitems⟩ := separated_of_texts hskips h hb (some '(') rest
  have hclose : symbol ")" ⟨last, ')' :: rest⟩ = some ((), ⟨some ')', rest⟩) := rfl
  rw [List.map_id'] at hitems
  rw [typeAtom_parenthesis]
  exact (bind_of_some hitems).trans ((bind_of_some hclose).trans rfl)

/-- A type that no arrow follows is all of a type. -/
theorem typeTerm_of_atom {c d : Cursor} {t : TypeTerm}
    (h : typeAtom (bound + 1) (typeTerm bound) c = some (t, d)) (hd : Closing d.rest) :
    typeTerm (bound + 1) c = some (t, d) := by
  have harrow : (do symbol "->"; typeTerm bound : Parser TypeTerm) d = none :=
    bind_eq_none ((symbol_opens (by decide)).closing (by decide) (by decide) hd)
  have hnone : Parser.optional (do symbol "->"; typeTerm bound) d = some (none, d) := by
    rw [optional, harrow]
  exact (bind_of_some h).trans ((bind_of_some hnone).trans rfl)

end Types

end Parser

namespace TypeTerm

variable {t param result : TypeTerm}

/-- The display of a type is read as that type, as all of a type and on the left of an arrow. -/
structure ReadsBack (t : TypeTerm) : Prop where
  whole : ∀ bound, t.chars.length ≤ bound → ReadsText (typeTerm bound) t t.chars
  param : ∀ bound, t.paramChars.length ≤ bound + 1 → ∀ previous rest,
    (∀ d ∈ rest.head?, isNameChar d = false) → ∃ last,
      typeAtom (bound + 1) (typeTerm bound) ⟨previous, t.paramChars ++ rest⟩ =
        some (t, ⟨last, rest⟩)

/-- Parentheses around a type do not matter. -/
theorem typeAtom_of_parentheses (h : ∀ bound, t.chars.length ≤ bound →
    ReadsText (typeTerm bound) t t.chars) {bound : Nat}
    (hbound : ('(' :: t.chars ++ [')']).length ≤ bound + 1) (previous : Option Char)
    (rest : List Char) : ∃ last, typeAtom (bound + 1) (typeTerm bound)
      ⟨previous, '(' :: t.chars ++ [')'] ++ rest⟩ = some (t, ⟨last, rest⟩) := by
  rw [List.length_append, List.length_cons, List.length_singleton] at hbound
  have hread : typeAtom (bound + 1) (typeTerm bound)
      ⟨previous, '(' :: (commaSeparated ([t].map chars) ++ ')' :: rest)⟩ =
        some (t, ⟨some ')', rest⟩) :=
    typeAtom_of_texts (typeTerm_skips bound) (by simpa using h bound (by omega)) (Nat.zero_le _)
      previous rest
  have hchars : commaSeparated ([t].map chars) = t.chars := List.append_nil _
  rw [hchars] at hread
  refine ⟨some ')', ?_⟩
  rw [List.append_assoc, List.cons_append, List.singleton_append]
  exact hread

theorem ReadsBack.of_whole
    (hwhole : ∀ bound, t.chars.length ≤ bound → ReadsText (typeTerm bound) t t.chars)
    (hatom : t.info.name? ≠ some "Function" → ∀ bound, t.chars.length ≤ bound + 1 →
      ∀ previous rest, (∀ d ∈ rest.head?, isNameChar d = false) → ∃ last,
        typeAtom (bound + 1) (typeTerm bound) ⟨previous, t.chars ++ rest⟩ =
          some (t, ⟨last, rest⟩)) : t.ReadsBack := by
  refine ⟨hwhole, fun bound hbound previous rest hrest => ?_⟩
  by_cases hfunction : t.info.name? = some "Function"
  · rw [paramChars, if_pos hfunction] at hbound ⊢
    exact typeAtom_of_parentheses hwhole hbound previous rest
  · rw [paramChars, if_neg hfunction] at hbound ⊢
    exact hatom hfunction bound hbound previous rest hrest

/-- What is read as a type that nothing can split is read as all of a type. -/
theorem ReadsBack.of_atom (hpos : 0 < t.chars.length)
    (hatom : ∀ bound, t.chars.length ≤ bound + 1 → ∀ previous rest,
      (∀ d ∈ rest.head?, isNameChar d = false) → ∃ last,
        typeAtom (bound + 1) (typeTerm bound) ⟨previous, t.chars ++ rest⟩ =
          some (t, ⟨last, rest⟩)) : t.ReadsBack := by
  refine .of_whole (fun bound hbound previous rest hrest => ?_) fun _ => hatom
  obtain ⟨bound, rfl⟩ : ∃ k, bound = k + 1 := ⟨bound - 1, by omega⟩
  obtain ⟨last, hread⟩ := hatom bound hbound previous rest fun d hd => by
    rcases hrest d hd with rfl | rfl <;> rfl
  exact ⟨last, typeTerm_of_atom hread hrest⟩

theorem ReadsBack.name {n : String} (hname : IsCapital n) (htuple : n ≠ "Tuple") :
    (TypeTerm.name n).ReadsBack := by
  obtain ⟨c, others, hchars, -⟩ := id hname
  refine .of_atom ?_ fun bound _ previous rest hrest => ?_
  · rw [chars_name htuple, hchars]
    exact Nat.succ_pos _
  · rw [chars_name htuple]
    exact typeAtom_of_isCapital hname hrest previous

/-- The items of a tuple, and their number, are no longer than the display of the tuple. -/
theorem length_chars_tuple {first : TypeTerm} {others : List TypeTerm} {bound : Nat}
    (hbound : (tuple (first :: others)).chars.length ≤ bound + 1) :
    (∀ item ∈ first :: others, item.chars.length ≤ bound) ∧ others.length ≤ bound + 1 := by
  rw [chars_tuple, List.length_append, List.length_cons, List.length_singleton] at hbound
  refine ⟨fun item hitem => ?_, ?_⟩
  · have hle := length_le_commaSeparated (List.mem_map_of_mem (f := chars) hitem)
    omega
  · have hle := length_le_length_commaSeparated first.chars (others.map chars)
    rw [List.length_map] at hle
    rw [List.map_cons] at hbound
    omega

theorem ReadsBack.tuple {items : List TypeTerm} (hsize : 2 ≤ items.length)
    (h : ∀ item ∈ items, item.ReadsBack) : (TypeTerm.tuple items).ReadsBack := by
  obtain ⟨first, second, others, rfl⟩ :
      ∃ first second others, items = first :: second :: others := by
    match items, hsize with
    | first :: second :: others, _ => exact ⟨first, second, others, rfl⟩
  refine .of_atom ?_ fun bound hbound previous rest _ => ⟨some ')', ?_⟩
  · rw [chars_tuple]
    exact Nat.succ_pos _
  · obtain ⟨hitems, hothers⟩ := length_chars_tuple hbound
    rw [chars_tuple, List.append_assoc, List.cons_append, List.singleton_append]
    exact typeAtom_of_texts (typeTerm_skips bound)
      (fun item hitem => (h item hitem).whole bound (hitems item hitem)) hothers previous rest

/-- An arrow with a blank on each side is read behind the type on its left. -/
theorem arrow_reads {bound : Nat} (last : Option Char) (rest : List Char) :
    (do symbol "->"; typeTerm bound : Parser TypeTerm)
        ⟨last, ' ' :: '-' :: '>' :: ' ' :: rest⟩ = typeTerm bound ⟨some ' ', rest⟩ := by
  have harrow : symbol "->" ⟨last, ' ' :: '-' :: '>' :: ' ' :: rest⟩ =
      some ((), ⟨some '>', ' ' :: rest⟩) := rfl
  exact (bind_of_some harrow).trans ((typeTerm_skips bound).blank _ _)

/-- A type on the left of an arrow, and what is read behind the arrow. -/
theorem typeTerm_of_param (bound : Nat) (hparam : param.ReadsBack)
    (hbound : param.paramChars.length ≤ bound + 1) (previous : Option Char) (rest : List Char) :
    ∃ last, typeTerm (bound + 1)
        ⟨previous, param.paramChars ++ ' ' :: '-' :: '>' :: ' ' :: rest⟩ =
      match typeTerm bound ⟨some ' ', rest⟩ with
      | none => some (param, ⟨last, ' ' :: '-' :: '>' :: ' ' :: rest⟩)
      | some (result, d) => some (.function param result, d) := by
  have hblank : ∀ d ∈ (' ' :: '-' :: '>' :: ' ' :: rest).head?, isNameChar d = false := by
    intro d hd
    cases hd
    rfl
  obtain ⟨last, hread⟩ := hparam.param bound hbound previous _ hblank
  refine ⟨last, (bind_of_some hread).trans ?_⟩
  cases hresult : typeTerm bound ⟨some ' ', rest⟩ with
  | none =>
      have hnone : Parser.optional (do symbol "->"; typeTerm bound)
          ⟨last, ' ' :: '-' :: '>' :: ' ' :: rest⟩ =
            some (none, ⟨last, ' ' :: '-' :: '>' :: ' ' :: rest⟩) := by
        rw [Parser.optional, arrow_reads, hresult]
      exact (bind_of_some hnone).trans rfl
  | some r =>
      obtain ⟨result, d⟩ := r
      have hsome : Parser.optional (do symbol "->"; typeTerm bound)
          ⟨last, ' ' :: '-' :: '>' :: ' ' :: rest⟩ = some (some result, d) := by
        rw [Parser.optional, arrow_reads, hresult]
      exact (bind_of_some hsome).trans rfl

theorem ReadsBack.function (hparam : param.ReadsBack) (hresult : result.ReadsBack) :
    (TypeTerm.function param result).ReadsBack := by
  refine .of_whole (fun bound hbound previous rest hrest => ?_) fun hne => absurd rfl hne
  rw [chars_function, List.length_append] at hbound
  simp only [List.length_cons] at hbound
  obtain ⟨bound, rfl⟩ : ∃ k, bound = k + 1 := ⟨bound - 1, by omega⟩
  obtain ⟨last, hlast⟩ := hresult.whole bound (by omega) (some ' ') rest hrest
  obtain ⟨_, hread⟩ := typeTerm_of_param bound hparam (by omega) previous
    (result.chars ++ rest)
  refine ⟨last, ?_⟩
  rw [hlast] at hread
  rw [chars_function, List.append_assoc]
  exact hread

/-- A written type without the name `Tuple` reads back. -/
theorem ReadsBack.of_not_uses (hwf : t.WellFormed) (htuple : ¬t.Uses "Tuple") : t.ReadsBack := by
  induction hwf with
  | name hname => exact .name hname fun he => htuple (he ▸ .here)
  | tuple hsize _ ih =>
      exact .tuple hsize fun item hitem => ih item hitem fun hu => htuple (.item hitem hu)
  | function _ _ ihparam ihresult =>
      exact .function (ihparam fun hu => htuple (.param hu))
        (ihresult fun hu => htuple (.result hu))

end TypeTerm

/-! ## Displays that cannot be read -/

namespace Parser

section Spoiled

variable {α ι : Type} {inner : Parser α} {make : ι → α} {write : ι → List Char}
  {first : ι} {items others : List ι} {bound : Nat} {previous : Option Char} {rest : List Char}
  {all : List α} {d : Cursor}

/-- A parser fails at a text or stops in front of an arrow, whatever stands behind the text. -/
def Spoils (p : Parser α) (text : List Char) : Prop :=
  ∀ previous rest a d, p ⟨previous, text ++ rest⟩ = some (a, d) → d.skip.rest.head? = some '-'

theorem symbol_of_head {w : String} (hw : w.toList ≠ []) {x : Char}
    (hd : d.skip.rest.head? = some x) (hx : begins w x = false) : symbol w d = none := by
  refine symbol_opens hw d fun y hy => ?_
  rw [hd] at hy
  cases hy
  exact hx

/-- No closing parenthesis stands behind a row whose first text is spoiled, or is read with no
closing parenthesis behind what follows. -/
theorem closes_not_behind {a b : α} {text more : List Char} {after : Cursor}
    (htext : ReadsText inner a text ∨ Spoils inner text) (hmore : Closing more)
    (hrest : ¬Spoils inner text → ∀ mid,
      symbol ")" (collect (do symbol ","; inner) bound ⟨mid, more⟩).2 = none)
    (hinner : inner ⟨previous, text ++ more⟩ = some (b, after)) :
    symbol ")" (collect (do symbol ","; inner) bound after).2 = none := by
  by_cases hs : Spoils inner text
  · have hhead := hs _ _ _ _ hinner
    have hnone : (do symbol ","; inner : Parser α) after = none :=
      bind_eq_none (symbol_of_head (by decide) hhead (by decide))
    rw [collect_of_none hnone]
    exact symbol_of_head (by decide) hhead (by decide)
  · obtain ⟨mid, hmid⟩ := htext.resolve_right hs previous more hmore
    cases hinner.symm.trans hmid
    exact hrest hs mid

/-- Reading a row stops no later than at the first text that is spoiled, and no closing parenthesis
stands there. -/
theorem collect_of_spoiled (hskips : Skips inner)
    (h : ∀ item ∈ items, ReadsText inner (make item) (write item) ∨ Spoils inner (write item))
    (hspoiled : ∃ item ∈ items, Spoils inner (write item)) (bound : Nat) (previous : Option Char)
    (rest : List Char) :
    symbol ")" (collect (do symbol ","; inner) bound
      ⟨previous, items.flatMap (fun item => ',' :: ' ' :: write item) ++ ')' :: rest⟩).2 =
        none := by
  induction items generalizing bound previous with
  | nil =>
      obtain ⟨_, hm, -⟩ := hspoiled
      cases hm
  | cons item items ih =>
      obtain ⟨hitem, hitems⟩ := List.forall_mem_cons.1 h
      let more := items.flatMap (fun item => ',' :: ' ' :: write item) ++ ')' :: rest
      have htext : (item :: items).flatMap (fun item => ',' :: ' ' :: write item) ++ ')' :: rest =
          ',' :: ' ' :: (write item ++ more) := by
        rw [List.flatMap_cons, List.append_assoc]
        rfl
      have hcomma : symbol "," ⟨previous, ',' :: ' ' :: (write item ++ more)⟩ =
          some ((), ⟨some ',', ' ' :: (write item ++ more)⟩) := rfl
      have hstep : (do symbol ","; inner : Parser α)
          ⟨previous, ',' :: ' ' :: (write item ++ more)⟩ =
            inner ⟨some ' ', write item ++ more⟩ := by
        rw [bind_of_some hcomma, hskips.blank]
      have hstart : symbol ")" ⟨previous, ',' :: ' ' :: (write item ++ more)⟩ = none :=
        (symbol_opens (by decide)).visible (by decide) (by decide) _ _
      rw [htext]
      cases bound with
      | zero => exact hstart
      | succ bound =>
          rw [collect, hstep]
          cases hinner : inner ⟨some ' ', write item ++ more⟩ with
          | none => exact hstart
          | some r =>
              obtain ⟨a, after⟩ := r
              refine closes_not_behind hitem (closing_items items write rest) (fun hs mid => ?_)
                hinner
              obtain ⟨other, hother, hspoils⟩ := hspoiled
              refine ih hitems ⟨other, ?_, hspoils⟩ bound mid
              exact (List.mem_cons.1 hother).resolve_left fun he => hs (he ▸ hspoils)

/-- Types between parentheses of which one is spoiled are not read. -/
theorem typeAtom_of_spoiled {inner : Parser TypeTerm} {first : TypeTerm} {others : List TypeTerm}
    {write : TypeTerm → List Char} (hskips : Skips inner)
    (h : ∀ item ∈ first :: others, ReadsText inner item (write item) ∨ Spoils inner (write item))
    (hspoiled : ∃ item ∈ first :: others, Spoils inner (write item)) (bound : Nat)
    (previous : Option Char) (rest : List Char) :
    typeAtom bound inner
      ⟨previous, '(' :: (commaSeparated ((first :: others).map write) ++ ')' :: rest)⟩ = none := by
  obtain ⟨hhead, hothers⟩ := List.forall_mem_cons.1 h
  let behind := others.flatMap (fun item => ',' :: ' ' :: write item) ++ ')' :: rest
  have htext : commaSeparated ((first :: others).map write) ++ ')' :: rest =
      write first ++ behind := by
    rw [List.map_cons, commaSeparated, List.flatMap_map, List.append_assoc]
  rw [typeAtom_parenthesis, htext]
  cases hinner : inner ⟨some '(', write first ++ behind⟩ with
  | none => exact bind_eq_none (bind_eq_none hinner)
  | some r =>
      obtain ⟨a, after⟩ := r
      have hrow : separated inner (symbol ",") bound ⟨some '(', write first ++ behind⟩ =
          some (a :: (collect (do symbol ","; inner) bound after).1,
            (collect (do symbol ","; inner) bound after).2) := bind_of_some hinner
      refine (bind_of_some hrow).trans (bind_eq_none ?_)
      refine closes_not_behind hhead (closing_items others write rest) (fun hs mid => ?_) hinner
      obtain ⟨other, hother, hspoils⟩ := hspoiled
      refine collect_of_spoiled hskips hothers ⟨other, ?_, hspoils⟩ bound mid rest
      exact (List.mem_cons.1 hother).resolve_left fun he => hs (he ▸ hspoils)

end Spoiled

end Parser

namespace TypeTerm

variable {t param result : TypeTerm}

/-- The display of a type cannot be read, neither as all of a type nor on the left of an arrow. -/
structure Unreadable (t : TypeTerm) : Prop where
  whole : ∀ bound, t.chars.length ≤ bound → Spoils (typeTerm bound) t.chars
  param : ∀ bound, t.paramChars.length ≤ bound + 1 → ∀ previous rest,
    typeAtom (bound + 1) (typeTerm bound) ⟨previous, t.paramChars ++ rest⟩ = none

/-- Parentheses do not help. -/
theorem Unreadable.of_whole
    (hwhole : ∀ bound, t.chars.length ≤ bound → Spoils (typeTerm bound) t.chars)
    (hatom : t.info.name? ≠ some "Function" → ∀ bound, t.chars.length ≤ bound + 1 →
      ∀ previous rest,
        typeAtom (bound + 1) (typeTerm bound) ⟨previous, t.chars ++ rest⟩ = none) :
    t.Unreadable := by
  refine ⟨hwhole, fun bound hbound previous rest => ?_⟩
  by_cases hfunction : t.info.name? = some "Function"
  · rw [paramChars, if_pos hfunction] at hbound ⊢
    rw [List.length_append, List.length_cons, List.length_singleton] at hbound
    have hspoils := hwhole bound (by omega)
    have hread : typeAtom (bound + 1) (typeTerm bound)
        ⟨previous, '(' :: (commaSeparated ([t].map chars) ++ ')' :: rest)⟩ = none :=
      typeAtom_of_spoiled (typeTerm_skips bound) (by simp [hspoils]) (by simp [hspoils]) (bound + 1)
        previous rest
    have hchars : commaSeparated ([t].map chars) = t.chars := List.append_nil _
    rw [hchars] at hread
    rw [List.append_assoc, List.cons_append, List.singleton_append]
    exact hread
  · rw [paramChars, if_neg hfunction] at hbound ⊢
    exact hatom hfunction bound hbound previous rest

theorem Unreadable.of_atom (hatom : ∀ bound, t.chars.length ≤ bound + 1 → ∀ previous rest,
    typeAtom (bound + 1) (typeTerm bound) ⟨previous, t.chars ++ rest⟩ = none) : t.Unreadable := by
  refine .of_whole (fun bound hbound previous rest a d hread => ?_) fun _ => hatom
  cases bound with
  | zero => cases hread
  | succ bound => cases (bind_eq_none (hatom bound hbound previous rest)).symm.trans hread

/-- No type is read where a closing parenthesis stands. -/
theorem Unreadable.named_tuple : (TypeTerm.name "Tuple").Unreadable := by
  refine .of_atom fun bound _ previous rest => ?_
  rw [chars_name_tuple, List.cons_append, List.singleton_append, typeAtom_parenthesis]
  have closed {bound : Nat} {inner : Parser TypeTerm} :
      typeAtom bound inner ⟨some '(', ')' :: rest⟩ = none := by
    have hname : (do return .name (← constructorName) : Parser TypeTerm) ⟨some '(', ')' :: rest⟩ =
        none := (word_opens _ _).bind.visible (by decide) (by decide) _ _
    rw [typeAtom, orElse_of_none hname]
    exact (symbol_opens (by decide)).bind.visible (by decide) (by decide) _ _
  cases bound with
  | zero => rfl
  | succ bound => exact bind_eq_none (bind_eq_none (bind_eq_none closed))

theorem Unreadable.tuple {items : List TypeTerm}
    (h : ∀ item ∈ items, item.ReadsBack ∨ item.Unreadable)
    (hspoiled : ∃ item ∈ items, item.Unreadable) : (TypeTerm.tuple items).Unreadable := by
  obtain ⟨item, hitem, hunreadable⟩ := hspoiled
  obtain ⟨first, others, rfl⟩ := List.exists_cons_of_ne_nil (List.ne_nil_of_mem hitem)
  refine .of_atom fun bound hbound previous rest => ?_
  obtain ⟨hlength, -⟩ := length_chars_tuple hbound
  rw [chars_tuple, List.append_assoc, List.cons_append, List.singleton_append]
  exact typeAtom_of_spoiled (typeTerm_skips bound)
    (fun item hm => (h item hm).imp (fun hr => hr.whole bound (hlength item hm))
      fun hu => hu.whole bound (hlength item hm))
    ⟨item, hitem, hunreadable.whole bound (hlength item hitem)⟩ (bound + 1) previous rest

/-- A function type fails on the left of its arrow, or it is left behind its parameter. -/
theorem Unreadable.function
    (h : param.Unreadable ∨ param.ReadsBack ∧ result.Unreadable) :
    (TypeTerm.function param result).Unreadable := by
  refine .of_whole (fun bound hbound previous rest a d hread => ?_) fun hne => absurd rfl hne
  rw [chars_function, List.length_append] at hbound
  simp only [List.length_cons] at hbound
  obtain ⟨bound, rfl⟩ : ∃ k, bound = k + 1 := ⟨bound - 1, by omega⟩
  rw [chars_function, List.append_assoc] at hread
  rcases h with hparam | ⟨hparam, hresult⟩
  · have hnone := hparam.param bound (by omega) previous
      (' ' :: '-' :: '>' :: ' ' :: result.chars ++ rest)
    cases (bind_eq_none hnone).symm.trans hread
  · obtain ⟨last, hstep⟩ := typeTerm_of_param bound hparam (by omega) previous
      (result.chars ++ rest)
    have hread := hstep.symm.trans hread
    cases hbehind : typeTerm bound ⟨some ' ', result.chars ++ rest⟩ with
    | none =>
        rw [hbehind] at hread
        cases hread
        rfl
    | some r =>
        rw [hbehind] at hread
        cases hread
        exact hresult.whole bound (by omega) _ _ _ _ hbehind

/-- A written type with the name `Tuple` in it is displayed unreadably. -/
theorem Unreadable.of_uses (hwf : t.WellFormed) (htuple : t.Uses "Tuple") : t.Unreadable := by
  have either {t : TypeTerm} (hwf : t.WellFormed) (h : t.Uses "Tuple" → t.Unreadable) :
      t.ReadsBack ∨ t.Unreadable := by
    by_cases hu : t.Uses "Tuple"
    · exact .inr (h hu)
    · exact .inl (.of_not_uses hwf hu)
  induction hwf with
  | name _ =>
      cases htuple
      exact .named_tuple
  | tuple _ hitems ih =>
      obtain _ | ⟨hitem, hu⟩ := htuple
      exact .tuple (fun item hm => either (hitems item hm) (ih item hm)) ⟨_, hitem, ih _ hitem hu⟩
  | @function param _ hparam _ ihparam ihresult =>
      refine .function ?_
      by_cases hu : param.Uses "Tuple"
      · exact .inl (ihparam hu)
      · refine .inr ⟨.of_not_uses hparam hu, ihresult ?_⟩
        cases htuple with
        | param h => exact absurd h hu
        | result h => exact h

/-! ## Whole displays -/

theorem tab_not_mem_chars (hwf : t.WellFormed) : '\t' ∉ t.chars := by
  induction hwf with
  | @name n hname =>
      by_cases htuple : n = "Tuple"
      · rw [htuple, chars_name_tuple]
        decide
      · rw [chars_name htuple]
        exact @Word.tab_not_mem (.constructor n) hname
  | @tuple items _ _ ih =>
      have hitems : '\t' ∉ commaSeparated (items.map chars) := by
        refine not_mem_commaSeparated (by decide) (by decide) fun text htext => ?_
        obtain ⟨item, hitem, rfl⟩ := List.mem_map.1 htext
        exact ih item hitem
      rw [chars_tuple]
      simp [hitems]
  | function _ _ ihparam ihresult =>
      rw [chars_function, paramChars]
      split <;> simp [ihparam, ihresult]

theorem parseElement_format_iff (hwf : t.WellFormed) :
    parseElement typeTerm true t.info.format = some t ↔ ¬t.Uses "Tuple" := by
  have htabs : Text.expandTabs t.info.format.toList = t.chars :=
    Text.expandTabsFrom_of_not_mem (tab_not_mem_chars hwf) 0
  have hbound : t.chars.length ≤ boundFor t.chars := Nat.le_succ _
  rw [parseElement, htabs]
  constructor
  · intro hread hu
    cases hstart : typeTerm (boundFor t.chars) (.start t.chars) with
    | none =>
        simp only [hstart] at hread
        cases hread
    | some r =>
        obtain ⟨a, d⟩ := r
        have hspoils := (Unreadable.of_uses hwf hu).whole _ hbound none [] a d
        rw [List.append_nil] at hspoils
        have hhead := hspoils hstart
        have hleft : d.skip.rest.isEmpty = false := by
          cases hrest : d.skip.rest with
          | nil => rw [hrest] at hhead; cases hhead
          | cons => rfl
        simp only [hstart, hleft] at hread
        cases hread
  · intro hu
    obtain ⟨last, hread⟩ := (ReadsBack.of_not_uses hwf hu).whole _ hbound none [] closing_nil
    rw [List.append_nil] at hread
    simp only [Cursor.start, hread]
    rfl

end TypeTerm

theorem exists_of_parseElement {α : Type} {element : Nat → Parser α} {all : Bool} {source : String}
    {a : α} (h : parseElement element all source = some a) :
    ∃ d, element (boundFor (Text.expandTabs source.toList))
      (.start (Text.expandTabs source.toList)) = some (a, d) := by
  unfold parseElement at h
  simp only at h
  split at h
  · cases h
  · next b d hd =>
    split at h
    · cases h
    · cases h
      exact ⟨d, hd⟩

/-- A type expression all of whose names are primitive types or types of a program means a type,
and the display of that type is read to its end as the same type expression exactly if the name
`Tuple` is not used. -/
theorem displayed_types_read_back {program : Program} {bound : Nat} {c d : Cursor} {t : TypeTerm}
    (hread : typeTerm bound c = some (t, d))
    (hknown : ∀ name, t.Uses name → name ∈ knownTypes program []) :
    ∃ type, t.resolve (knownTypes program []) = .ok type ∧
      (parseElement typeTerm true type.format = some t ↔ ¬t.Uses "Tuple") := by
  have hwf := yields_iff.1 (typeTerm_yields bound) c t d hread
  obtain ⟨type, htype⟩ := (TypeTerm.resolves_iff hwf).2 hknown
  refine ⟨type, htype, ?_⟩
  rw [TypeTerm.info_of_resolve htype]
  exact TypeTerm.parseElement_format_iff hwf

/-- A type with an arrow on the left of another one, in front of a tuple. -/
theorem displayed_types_read_back_arrows :
    ∃ t type, parseElement typeTerm true "(Int -> Bool) -> (Int, String)" = some t ∧
      t.resolve (knownTypes Program.empty []) = .ok type ∧
      parseElement typeTerm true type.format = some t := by
  -- The type expression uses three names, which are known and of which none is `Tuple`.
  have htest : (parseElement typeTerm true "(Int -> Bool) -> (Int, String)").any fun t =>
      (t.resolve (knownTypes Program.empty [])).toOption.isSome &&
        (t.resolve ["Int", "Bool", "String"]).toOption.isSome := by
    decide +kernel
  obtain ⟨t, ht, htests⟩ := exists_of_any htest
  obtain ⟨hknown, hnames⟩ := Bool.and_eq_true_iff.1 htests
  obtain ⟨_, hknown⟩ := Option.isSome_iff_exists.1 hknown
  obtain ⟨_, hnames⟩ := Option.isSome_iff_exists.1 hnames
  obtain ⟨behind, hread⟩ := exists_of_parseElement ht
  have hwf := yields_iff.1 (typeTerm_yields _) _ _ _ hread
  obtain ⟨type, htype, hback⟩ := displayed_types_read_back hread
    ((TypeTerm.resolves_iff hwf).1 ⟨_, toOption_eq_some.1 hknown⟩)
  refine ⟨t, type, ht, htype, hback.2 fun hu => ?_⟩
  exact absurd ((TypeTerm.resolves_iff hwf).1 ⟨_, toOption_eq_some.1 hnames⟩ _ hu) (by decide)

/-- A declared type of the name `Tuple` is displayed as the tuple without items, and a text of that
is no type expression. -/
theorem tuple_type_is_displayed_unreadably :
    ∃ program type, Program.ofText? "type Tuple = Pair Int. type Box = {content : Tuple}." =
        some program ∧
      "Tuple" ∈ program.types.map (·.name) ∧
      parseElement typeTerm true "Tuple" = some (.name "Tuple") ∧
      (TypeTerm.name "Tuple").resolve (knownTypes program []) = .ok type ∧
      parseElement typeTerm true type.format = none := by
  have htest : (Program.ofText? "type Tuple = Pair Int. type Box = {content : Tuple}.").any
      fun program => "Tuple" ∈ program.types.map (·.name) := by
    decide +kernel
  have hread : (parseElement typeTerm true "Tuple").any fun
      | .name n => n = "Tuple"
      | _ => false := by
    decide +kernel
  have hfails : (parseElement typeTerm true (TypeInfo.named "Tuple" []).format).isNone := by
    decide +kernel
  obtain ⟨program, hprogram, hdeclared⟩ := exists_of_any htest
  obtain ⟨t, ht, hname⟩ := exists_of_any hread
  have hdeclared := of_decide_eq_true hdeclared
  have hknown : (knownTypes program []).contains "Tuple" := by
    rw [List.contains_iff_mem, knownTypes]
    exact List.mem_append_left _ (List.mem_append_right _ hdeclared)
  split at hname
  · next n =>
    cases of_decide_eq_true hname
    exact ⟨program, _, hprogram, hdeclared, ht, if_pos hknown, Option.isNone_iff_eq_none.1 hfails⟩
  · cases hname

end Fern
