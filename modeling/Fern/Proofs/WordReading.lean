import Fern.Proofs.WordParsers

/-!
# Reading single words

Every parser for a word reads the words of its kind and refuses the others. Two
of them see more than kinds: a sign may be the beginning of another sign, and a
keyword is told from a name by the character behind it.
-/

namespace Fern

open Syntax Fern.Parser

variable {w : Word} {ws : List Word} {previous : Option Char} {text behind : List Char}

/-! ## Kinds of characters -/

theorem Word.touches_of_kind {kinds : List Word.Kind} (h : w.kind ∉ kinds)
    (hs : .selector ∈ kinds) : w.touches = false := by
  cases w with
  | field | item => exact absurd hs h
  | _ => rfl

theorem isLower_eq_false_of_isUpper {c : Char} (h : c.isUpper) : c.isLower = false := by
  have hu := of_decide_eq_true h
  refine Bool.and_eq_false_iff.2 (.inl (decide_eq_false fun hl => ?_))
  exact absurd (UInt32.le_trans hl hu.2) (by decide)

theorem isNameStart_eq_false_of_isUpper {c : Char} (h : c.isUpper) : isNameStart c = false := by
  rw [isNameStart, isLower_eq_false_of_isUpper h, Bool.false_or]
  refine beq_eq_false_iff_ne.2 fun he => ?_
  rw [he] at h
  exact absurd h (by decide)

theorem isUpper_eq_false_of_isNameStart {c : Char} (h : isNameStart c) : c.isUpper = false := by
  refine Bool.eq_false_iff.2 fun hu => ?_
  rw [isNameStart_eq_false_of_isUpper hu] at h
  exact absurd h (by decide)

theorem isNameStart_eq_false_of_isDigit {c : Char} (h : c.isDigit) : isNameStart c = false := by
  have hd := (Bool.and_eq_true_iff.1 h).2
  refine Bool.eq_false_iff.2 fun hs => ?_
  rcases Bool.or_eq_true_iff.1 hs with hl | he
  · have hl := (Bool.and_eq_true_iff.1 hl).1
    exact absurd (UInt32.le_trans (of_decide_eq_true hl) (of_decide_eq_true hd)) (by decide)
  · rw [eq_of_beq he] at h
    exact absurd h (by decide)

theorem isDigit_eq_false_of_isNameStart {c : Char} (h : isNameStart c) : c.isDigit = false := by
  refine Bool.eq_false_iff.2 fun hd => ?_
  rw [isNameStart_eq_false_of_isDigit hd] at h
  exact absurd h (by decide)

theorem isUpper_eq_false_of_isDigit {c : Char} (h : c.isDigit) : c.isUpper = false := by
  have hd := (Bool.and_eq_true_iff.1 h).2
  refine Bool.eq_false_iff.2 fun hu => ?_
  exact absurd (UInt32.le_trans (of_decide_eq_true hu).1 (of_decide_eq_true hd)) (by decide)

theorem isDigit_eq_false_of_isUpper {c : Char} (h : c.isUpper) : c.isDigit = false := by
  refine Bool.eq_false_iff.2 fun hd => ?_
  rw [isUpper_eq_false_of_isDigit hd] at h
  exact absurd h (by decide)

theorem isNameStart_of_isLower {c : Char} (h : c.isLower) : isNameStart c :=
  Bool.or_eq_true_iff.2 (.inl h)

namespace Word.Kind

variable {kind : Word.Kind} {c : Char}

theorem not_isNameStart (h : kind.opens c = true) (hk : kind ∉ [.name, .keyword]) :
    isNameStart c = false := by
  cases kind with
  | sign =>
      refine Bool.eq_false_iff.2 fun hs => ?_
      rw [opens, isNameChar_of_isNameStart hs] at h
      cases h
  | name | keyword => exact absurd (by decide) hk
  | constructor => exact isNameStart_eq_false_of_isUpper h
  | number => exact isNameStart_eq_false_of_isDigit h
  | literal | selector =>
      rw [show c = _ from eq_of_beq h]
      decide

theorem not_isUpper (h : kind.opens c = true) (hk : kind ≠ .constructor) : c.isUpper = false := by
  cases kind with
  | sign =>
      refine Bool.eq_false_iff.2 fun hs => ?_
      rw [opens, isNameChar_of_isUpper hs] at h
      cases h
  | keyword => exact isUpper_eq_false_of_isNameStart (isNameStart_of_isLower h)
  | name => exact isUpper_eq_false_of_isNameStart h
  | constructor => exact absurd rfl hk
  | number => exact isUpper_eq_false_of_isDigit h
  | literal | selector =>
      rw [show c = _ from eq_of_beq h]
      decide

theorem not_isDigit (h : kind.opens c = true) (hk : kind ≠ .number) : c.isDigit = false := by
  cases kind with
  | sign =>
      refine Bool.eq_false_iff.2 fun hs => ?_
      rw [opens, isNameChar_of_isDigit hs] at h
      cases h
  | keyword => exact isDigit_eq_false_of_isNameStart (isNameStart_of_isLower h)
  | name => exact isDigit_eq_false_of_isNameStart h
  | constructor => exact isDigit_eq_false_of_isUpper h
  | number => exact absurd rfl hk
  | literal | selector =>
      rw [show c = _ from eq_of_beq h]
      decide

theorem isNameChar (h : kind.opens c = true) (hk : kind ∉ [.sign, .literal, .selector]) :
    isNameChar c := by
  cases kind with
  | keyword => exact isNameChar_of_isNameStart (isNameStart_of_isLower h)
  | name => exact isNameChar_of_isNameStart h
  | constructor => exact isNameChar_of_isUpper h
  | number => exact isNameChar_of_isDigit h
  | sign | literal | selector => exact absurd (by decide) hk

theorem ne_quote (h : kind.opens c = true) (hk : kind ≠ .literal) : c ≠ '"' := by
  rintro rfl
  cases kind with
  | literal => exact hk rfl
  | _ => exact absurd h (by decide)

theorem opens_dot (h : kind.opens '.' = true) : kind = .sign ∨ kind = .selector := by
  cases kind with
  | sign => exact .inl rfl
  | selector => exact .inr rfl
  | _ => exact absurd h (by decide)

end Word.Kind

/-! ## Signs -/

/-- A word does not begin with a sign. -/
def Word.lacksSign (sign : String) : Word → Bool
  | .sign text => !sign.toList.isPrefixOf text.toList
  | .field _ | .item _ => false
  | _ => true

theorem accept_append (word behind : List Char) (previous : Option Char) :
    Cursor.accept word ⟨previous, word ++ behind⟩ =
      some ⟨word.getLast?.or previous, behind⟩ := by
  rw [Cursor.accept, if_pos (List.isPrefixOf_iff_prefix.2 (List.prefix_append ..)),
    List.drop_left]

theorem symbol_reads {sign : String} (hs : sign ∈ signs) :
    Reads (symbol sign) () (.sign sign :: ws) ws := by
  refine Reads.token rfl fun _ previous behind _ _ => ?_
  have hlast : ∀ sign ∈ signs, sign.toList.getLast?.isSome := by decide
  obtain ⟨c, hc⟩ := Option.isSome_iff_exists.1 (hlast sign hs)
  refine ⟨c, ?_⟩
  rw [show (Word.sign sign).chars = sign.toList from rfl, accept_append, hc]
  rfl

/-- A sign stands before a bounded text only if it begins the word that stands there. -/
theorem not_prefix_append {sign : String} (hs : sign ∈ signs) (hn : ¬ sign.toList <+: text)
    (ht : text ≠ []) (hb : Bounded behind) : ¬ sign.toList <+: text ++ behind := by
  intro hp
  rcases Nat.le_total sign.toList.length text.length with hl | hl
  · exact hn (List.prefix_of_prefix_length_le hp (List.prefix_append ..) hl)
  · -- A sign longer than the word has a character that would end the word.
    obtain ⟨more, hmore⟩ := List.prefix_of_prefix_length_le (List.prefix_append text behind) hp hl
    rw [← hmore, List.prefix_append_right_inj] at hp
    cases more with
    | nil =>
        rw [List.append_nil] at hmore
        exact hn (hmore ▸ List.prefix_rfl)
    | cons c more =>
        have inside : ∀ sign ∈ signs, (sign.toList.tail.any endsWord) = false := by decide
        obtain ⟨rest, rfl⟩ := hp
        obtain ⟨d, text, rfl⟩ := List.exists_cons_of_ne_nil ht
        have hc : c ∈ sign.toList.tail := by
          rw [← hmore]
          exact List.mem_append_right _ List.mem_cons_self
        exact absurd (hb c rfl) (List.any_eq_false.1 (inside sign hs) c hc)

theorem Word.touches_of_lacksSign {sign : String} (h : w.lacksSign sign = true) :
    w.touches = false := by
  cases w with
  | field | item => cases h
  | _ => rfl

theorem symbol_refuses {sign : String} (hs : sign ∈ signs) (hw : w.lacksSign sign = true) :
    Refuses (symbol sign) (w :: ws) := by
  refine Refuses.token (Word.touches_of_lacksSign hw) fun hfit previous behind _ hb => ?_
  obtain ⟨c, rest, hc, ho⟩ := Word.chars_cons hfit
  have hn : ¬ sign.toList <+: w.chars := by
    have opening : ∀ sign ∈ signs,
        (sign.toList.head?.any fun c => !(isNameChar c || c == '"')) = true := by decide
    obtain ⟨d, hd, hdc⟩ := (Option.any_eq_true _ _).1 (opening sign hs)
    obtain ⟨more, hmore⟩ := List.head?_eq_some_iff.1 hd
    have differs (h : (isNameChar c || c == '"') = true) : ¬ sign.toList <+: w.chars := by
      rintro ⟨tail, hp⟩
      rw [hmore, hc] at hp
      injection hp with he
      rw [he, h] at hdc
      cases hdc
    cases w with
    | sign text =>
        intro hp
        rw [Word.chars, ← List.isPrefixOf_iff_prefix] at hp
        rw [Word.lacksSign, hp] at hw
        cases hw
    | field | item => cases hw
    | literal => exact differs (Bool.or_eq_true_iff.2 (.inr ho))
    | keyword | name | constructor | number =>
        exact differs (Bool.or_eq_true_iff.2 (.inl (Word.Kind.isNameChar ho (by simp [Word.kind]))))
  have hne : w.chars ≠ [] := by
    rw [hc]
    exact List.cons_ne_nil _ _
  have hnone : Cursor.accept sign.toList ⟨previous, w.chars ++ behind⟩ = none := by
    rw [Cursor.accept, if_neg fun hp =>
      not_prefix_append hs hn hne hb (List.isPrefixOf_iff_prefix.1 hp)]
  rw [hnone]
  rfl

theorem symbol_refuses_of_begins {sign : String} (hs : sign ∈ signs)
    (h : Begins (·.lacksSign sign) ws) : Refuses (symbol sign) ws := by
  obtain ⟨w, others, rfl, hw⟩ := h
  exact symbol_refuses hs hw

/-! ## Keywords -/

/-- A word is another one than a keyword. -/
def Word.lacksKeyword (keyword : String) : Word → Bool
  | .keyword text => text != keyword
  | .field _ | .item _ => false
  | _ => true

theorem Word.touches_of_lacksKeyword {keyword : String} (h : w.lacksKeyword keyword = true) :
    w.touches = false := by
  cases w with
  | field | item => cases h
  | _ => rfl

/-- A keyword stands where the longest run of characters that can touch a keyword
is that keyword. -/
theorem keywordHere_eq {keyword : String} (hk : ∀ c ∈ keyword.toList, isKeywordChar c)
    (hp : previous.any isKeywordChar = false) :
    keywordHere keyword ⟨previous, text⟩ =
      if text.takeWhile isKeywordChar = keyword.toList then
        some ((), ⟨keyword.toList.getLast?.or previous, text.dropWhile isKeywordChar⟩)
      else none := by
  rw [keywordHere, if_neg (by rw [hp]; decide)]
  by_cases hrun : text.takeWhile isKeywordChar = keyword.toList
  · rw [if_pos hrun]
    have ht : text = keyword.toList ++ text.dropWhile isKeywordChar := by
      rw [← hrun, List.takeWhile_append_dropWhile]
    have hstop : (text.dropWhile isKeywordChar).head?.any isKeywordChar = false := by
      have hd := List.head?_dropWhile_not isKeywordChar text
      cases h : (text.dropWhile isKeywordChar).head? with
      | none => rfl
      | some c =>
          rw [h] at hd
          simpa using hd
    generalize text.dropWhile isKeywordChar = behind at ht hstop ⊢
    rw [ht, accept_append]
    simp only [hstop, Bool.false_eq_true, if_false]
  · rw [if_neg hrun]
    split
    · rfl
    · next next ha =>
      split
      · rfl
      · next hstop =>
        refine absurd ?_ hrun
        rw [show text = keyword.toList ++ next.rest from Cursor.rest_of_accept ha,
          List.takeWhile_append_of_pos hk]
        cases hr : next.rest with
        | nil => exact List.append_nil _
        | cons c rest =>
            have hc : ¬ isKeywordChar c = true := by
              rw [hr] at hstop
              exact hstop
            rw [List.takeWhile_cons_of_neg hc, List.append_nil]

theorem isKeywordChar_of_mem_keywords {keyword : String} (h : keyword ∈ keywords) :
    ∀ c ∈ keyword.toList, isKeywordChar c := by
  have hall : ∀ keyword ∈ keywords, keyword.toList.all isKeywordChar = true := by decide
  exact List.all_eq_true.1 (hall keyword h)

theorem takeWhile_of_bounded (hb : Bounded behind) : behind.takeWhile isKeywordChar = [] := by
  cases behind with
  | nil => rfl
  | cons c behind =>
      refine List.takeWhile_cons_of_neg fun hk => ?_
      exact absurd (hb c rfl) (by rw [not_endsWord_of_isKeywordChar hk]; decide)

/-- What can touch a keyword at a word ends with the word. -/
theorem takeWhile_append_of_bounded (hb : Bounded behind) :
    (text ++ behind).takeWhile isKeywordChar = text.takeWhile isKeywordChar := by
  induction text with
  | nil => exact takeWhile_of_bounded hb
  | cons c text ih =>
      rw [List.cons_append, List.takeWhile_cons, List.takeWhile_cons, ih]

theorem takeWhile_of_keyword {keyword : String} (h : keyword ∈ keywords) :
    keyword.toList.takeWhile isKeywordChar = keyword.toList := by
  have hall : ∀ keyword ∈ keywords,
      keyword.toList.takeWhile isKeywordChar = keyword.toList := by decide
  exact hall keyword h

/-- What can touch a keyword at a word is a keyword only if the word is. -/
theorem takeWhile_chars_ne {keyword : String} (hk : keyword ∈ keywords) (hfit : w.Fits)
    (hw : w.lacksKeyword keyword = true) : w.chars.takeWhile isKeywordChar ≠ keyword.toList := by
  have opening : ∀ keyword ∈ keywords, keyword.toList.head?.any Char.isLower = true := by decide
  obtain ⟨d, hd, hlower⟩ := (Option.any_eq_true _ _).1 (opening keyword hk)
  obtain ⟨more, hmore⟩ := List.head?_eq_some_iff.1 hd
  obtain ⟨c, rest, hc, ho⟩ := Word.chars_cons hfit
  have differs (hl : c.isLower = false) : w.chars.takeWhile isKeywordChar ≠ keyword.toList := by
    intro he
    rw [hc, List.takeWhile_cons, hmore] at he
    split at he
    · injection he with he
      rw [he, hlower] at hl
      cases hl
    · cases he
  have lower (hs : isNameStart c = false) : c.isLower = false :=
    (Bool.or_eq_false_iff.1 hs).1
  cases w with
  | sign | constructor | number | literal =>
      exact differs (lower (Word.Kind.not_isNameStart ho (by simp [Word.kind])))
  | field | item => cases hw
  | keyword text =>
      rw [Word.chars, takeWhile_of_keyword hfit]
      exact fun he => absurd (String.toList_inj.1 he) (bne_iff_ne.1 hw)
  | name text =>
      intro he
      rw [Word.chars] at he
      have ht : text.toList = keyword.toList ++ text.toList.dropWhile isKeywordChar := by
        rw [← he, List.takeWhile_append_dropWhile]
      obtain ⟨c, hhead, hquote⟩ := hfit.unreserved keyword hk _ ht
      have hmem : c ∈ text.toList := by
        rw [ht]
        exact List.mem_append_right _ (List.mem_of_mem_head? hhead)
      have hchar := hfit.begins.isNameChar (fun _ => isNameChar_of_isNameStart) hmem
      have hstop := List.head?_dropWhile_not isKeywordChar text.toList
      rw [hhead] at hstop
      -- A character of names that can touch a keyword is an apostrophe.
      rcases Bool.or_eq_true_iff.1 hchar with h | h
      · simp only [isKeywordChar, h, Bool.true_or] at hstop
        cases hstop
      · exact hquote (eq_of_beq h)

theorem keyword_reads {text : String} (hk : text ∈ keywords) :
    Reads (keyword text) () (.keyword text :: ws) ws := by
  refine Reads.token rfl fun _ previous behind hp hb => ?_
  have hchars := isKeywordChar_of_mem_keywords hk
  have hlast : ∀ text ∈ keywords, text.toList.getLast?.isSome := by decide
  obtain ⟨c, hc⟩ := Option.isSome_iff_exists.1 (hlast text hk)
  have htake : (text.toList ++ behind).takeWhile isKeywordChar = text.toList := by
    rw [takeWhile_append_of_bounded hb, takeWhile_of_keyword hk]
  have hdrop : (text.toList ++ behind).dropWhile isKeywordChar = behind := by
    have h := List.takeWhile_append_dropWhile (p := isKeywordChar) (l := text.toList ++ behind)
    rw [htake] at h
    exact List.append_cancel_left h
  refine ⟨c, ?_⟩
  rw [show (Word.keyword text).chars = text.toList from rfl, keywordHere_eq hchars hp, if_pos htake,
    hdrop, hc]
  rfl

theorem keywordHere_eq_none {text : String} (hk : text ∈ keywords) (hfit : w.Fits)
    (hw : w.lacksKeyword text = true) (hp : previous.any isKeywordChar = false)
    (hb : Bounded behind) : keywordHere text ⟨previous, w.chars ++ behind⟩ = none := by
  rw [keywordHere_eq (isKeywordChar_of_mem_keywords hk) hp, takeWhile_append_of_bounded hb,
    if_neg (takeWhile_chars_ne hk hfit hw)]

theorem keyword_refuses {text : String} (hk : text ∈ keywords) (hw : w.lacksKeyword text = true) :
    Refuses (keyword text) (w :: ws) :=
  Refuses.token (Word.touches_of_lacksKeyword hw) fun hfit _ _ hp hb =>
    keywordHere_eq_none hk hfit hw hp hb

/-! ## Names, constructors and numbers -/

theorem spanFrom_append {test : Char → Bool} {taken behind : List Char} {c : Char}
    (ht : ∀ d ∈ taken, test d) (hb : ∀ d ∈ behind.head?, test d = false) :
    ∃ last, Cursor.spanFrom test (some c) (taken ++ behind) = (taken, ⟨some last, behind⟩) := by
  induction taken generalizing c with
  | nil =>
      refine ⟨c, ?_⟩
      cases behind with
      | nil => rfl
      | cons d behind => rw [List.nil_append, Cursor.spanFrom, if_neg (by rw [hb d rfl]; decide)]
  | cons d taken ih =>
      obtain ⟨hd, ht⟩ := List.forall_mem_cons.1 ht
      obtain ⟨last, hl⟩ := ih ht (c := d)
      exact ⟨last, by rw [List.cons_append, Cursor.spanFrom, if_pos hd]; simp only [hl]⟩

/-- A word is read up to the character that ends it. -/
theorem word_eq_some (previous : Option Char) {start others : Char → Bool} {c : Char}
    {rest behind : List Char} (hc : start c) (hrest : ∀ d ∈ rest, others d)
    (hb : ∀ d ∈ behind.head?, others d = false) :
    ∃ last, word start others ⟨previous, c :: rest ++ behind⟩ =
      some (String.ofList (c :: rest), ⟨some last, behind⟩) := by
  obtain ⟨last, hl⟩ := spanFrom_append (c := c) hrest hb
  have hspan : (Cursor.past c (rest ++ behind)).span others = (rest, ⟨some last, behind⟩) := hl
  exact ⟨last, by simp only [word, List.cons_append, if_pos hc, hspan]⟩

/-- A word that has been read is the longest one at its place. -/
theorem exists_of_word {start others : Char → Bool} {cursor after : Cursor} {text : String}
    (h : word start others cursor = some (text, after)) :
    ∃ c rest, cursor.rest = c :: rest ∧ start c ∧
      text = String.ofList (c :: rest.takeWhile others) ∧ after.rest = rest.dropWhile others := by
  unfold word at h
  split at h
  · cases h
  · next c rest hrest =>
    split at h
    · next hc =>
      obtain ⟨htaken, hbehind⟩ := Cursor.spanFrom_eq others (some c) rest
      cases h
      exact ⟨c, rest, hrest, hc, congrArg (fun taken => String.ofList (c :: taken)) htaken, hbehind⟩
    · cases h

theorem word_eq_none {start others : Char → Bool} {text : List Char}
    (h : ∀ c ∈ text.head?, start c = false) : word start others ⟨previous, text⟩ = none := by
  cases text with
  | nil => rfl
  | cons c text =>
      show (if start c then _ else none) = _
      rw [if_neg (by rw [h c rfl]; decide)]

theorem word_eq_none_of_opens {start others : Char → Bool} (hfit : w.Fits)
    (h : ∀ c, w.kind.opens c = true → start c = false) :
    word start others ⟨previous, w.chars ++ behind⟩ = none := by
  obtain ⟨c, rest, hc, ho⟩ := Word.chars_cons hfit
  rw [hc]
  refine word_eq_none fun d hd => ?_
  cases hd
  exact h c ho

theorem not_isNameChar_of_bounded (hb : Bounded behind) :
    ∀ c ∈ behind.head?, isNameChar c = false := by
  intro c hc
  refine Bool.eq_false_iff.2 fun hn => ?_
  exact absurd (hb c hc) (by rw [not_endsWord_of_isNameChar hn]; decide)

theorem not_isDigit_of_bounded (hb : Bounded behind) : ∀ c ∈ behind.head?, c.isDigit = false := by
  intro c hc
  refine Bool.eq_false_iff.2 fun hd => ?_
  exact absurd (isNameChar_of_isDigit hd) (by rw [not_isNameChar_of_bounded hb c hc]; decide)

/-- A name that stands at a place is read there, whatever it stands behind. -/
theorem word_eq_of_beginsAs (previous : Option Char) {start : Char → Bool} {text : String}
    (h : BeginsAs start text) (hb : ∀ d ∈ behind.head?, isNameChar d = false) :
    ∃ last, word start isNameChar ⟨previous, text.toList ++ behind⟩ =
      some (text, ⟨some last, behind⟩) := by
  obtain ⟨c, rest, ht, hc, hrest⟩ := h
  obtain ⟨last, hl⟩ := word_eq_some previous hc hrest hb
  refine ⟨last, ?_⟩
  rw [ht, hl, ← ht, String.ofList_toList]

/-- The digits of a number are read as that number. -/
theorem digits_word_eq (previous : Option Char) (n : Nat)
    (hb : ∀ d ∈ behind.head?, d.isDigit = false) :
    ∃ last, word Char.isDigit Char.isDigit ⟨previous, Nat.toDigits 10 n ++ behind⟩ =
      some (String.ofList (Nat.toDigits 10 n), ⟨some last, behind⟩) := by
  obtain ⟨c, rest, hc⟩ := List.exists_cons_of_ne_nil (Nat.toDigits_ne_nil (n := n) (b := 10))
  have hd : ∀ d ∈ c :: rest, d.isDigit := fun d hm => isDigit_of_mem_toDigits (hc ▸ hm)
  obtain ⟨hfirst, hrest⟩ := List.forall_mem_cons.1 hd
  rw [hc]
  exact word_eq_some previous hfirst hrest hb

/-- No keyword stands where a word that is none does. -/
theorem atKeyword_eq_false (hfit : w.Fits) (hk : w.kind ∉ [.keyword, .selector])
    (hp : previous.any isKeywordChar = false) (hb : Bounded behind) :
    atKeyword ⟨previous, w.chars ++ behind⟩ = false := by
  refine List.any_eq_false.2 fun keyword hm => ?_
  have hw : w.lacksKeyword keyword = true := by
    cases w with
    | keyword | field | item => exact absurd (by simp [Word.kind]) hk
    | _ => rfl
  rw [keywordHere_eq_none hm hfit hw hp hb]
  decide

theorem name_reads {text : String} : Reads name text (.name text :: ws) ws := by
  refine Reads.token rfl fun hfit previous behind hp hb => ?_
  rw [if_neg (by rw [atKeyword_eq_false hfit (by simp [Word.kind]) hp hb]; decide)]
  exact word_eq_of_beginsAs previous hfit.begins (not_isNameChar_of_bounded hb)

theorem name_refuses (hk : w.kind ∉ [.name, .selector]) : Refuses name (w :: ws) := by
  have ht : w.touches = false := Word.touches_of_kind hk (by decide)
  refine Refuses.token ht fun hfit previous behind hp hb => ?_
  cases w with
  | name | field | item => exact absurd (by simp [Word.kind]) hk
  | keyword text =>
      obtain ⟨c, hc⟩ : ∃ c, keywordHere text ⟨previous, text.toList ++ behind⟩ = some ((), c) := by
        rw [keywordHere_eq (isKeywordChar_of_mem_keywords hfit) hp, takeWhile_append_of_bounded hb,
          if_pos (takeWhile_of_keyword hfit)]
        exact ⟨_, rfl⟩
      have hat : atKeyword ⟨previous, text.toList ++ behind⟩ = true :=
        List.any_eq_true.2 ⟨text, hfit, by rw [hc]; rfl⟩
      rw [show (Word.keyword text).chars = text.toList from rfl, if_pos hat]
  | sign | constructor | number | literal =>
      rw [if_neg (by rw [atKeyword_eq_false hfit (by simp [Word.kind]) hp hb]; decide)]
      exact word_eq_none_of_opens hfit fun _ ho =>
        Word.Kind.not_isNameStart ho (by simp [Word.kind])

theorem constructorName_reads {text : String} :
    Reads constructorName text (.constructor text :: ws) ws :=
  Reads.token rfl fun hfit previous _ _ hb =>
    word_eq_of_beginsAs previous hfit (not_isNameChar_of_bounded hb)

theorem constructorName_refuses (hk : w.kind ∉ [.constructor, .selector]) :
    Refuses constructorName (w :: ws) := by
  have ht : w.touches = false := Word.touches_of_kind hk (by decide)
  refine Refuses.token ht fun hfit previous behind _ _ => ?_
  exact word_eq_none_of_opens hfit fun _ ho => Word.Kind.not_isUpper ho fun h => hk (by simp [h])

theorem number_reads {n : Nat} : Reads number n (.number n :: ws) ws := by
  refine Reads.token rfl fun _ previous behind _ hb => ?_
  obtain ⟨last, hl⟩ := digits_word_eq previous n (not_isDigit_of_bounded hb)
  refine ⟨last, bind_eq_some.2 ⟨_, _, hl, ?_⟩⟩
  rw [String.toList_ofList, Text.decimalValue_toDigits]
  rfl

theorem number_refuses (hk : w.kind ∉ [.number, .selector]) : Refuses number (w :: ws) := by
  have ht : w.touches = false := Word.touches_of_kind hk (by decide)
  refine Refuses.token ht fun hfit previous behind _ _ => ?_
  have hnone : word Char.isDigit Char.isDigit ⟨previous, w.chars ++ behind⟩ = none :=
    word_eq_none_of_opens hfit fun _ ho => Word.Kind.not_isDigit ho fun h => hk (by simp [h])
  exact bind_eq_none hnone

/-! ## Text literals -/

theorem literalBody_writeChar_append (c : Char) (rest : List Char) :
    literalBody (writeChar c ++ rest) =
      (literalBody rest).map fun (body, behind) => (writeChar c ++ body, behind) := by
  unfold writeChar
  split
  · show literalBody ('\\' :: '\\' :: rest) = _
    rw [literalBody]
    simp
  · show literalBody ('\\' :: '"' :: rest) = _
    rw [literalBody]
    simp
  · show literalBody ('\\' :: 'n' :: rest) = _
    rw [literalBody]
    simp
  · show literalBody ('\\' :: 'r' :: rest) = _
    rw [literalBody]
    simp
  · show literalBody ('\\' :: 't' :: rest) = _
    rw [literalBody]
    simp
  · rw [List.singleton_append, literalBody] <;> simp_all

/-- What is written inside a literal is read up to the closing quote. -/
theorem literalBody_writeChar (text behind : List Char) :
    literalBody (text.flatMap writeChar ++ '"' :: behind) =
      some (text.flatMap writeChar, .past '"' behind) := by
  induction text with
  | nil => rfl
  | cons c text ih =>
      rw [List.flatMap_cons, List.append_assoc, literalBody_writeChar_append, ih]
      rfl

theorem unescape_writeChar_append (c : Char) (rest : List Char) :
    unescape (writeChar c ++ rest) = c :: unescape rest := by
  unfold writeChar
  split
  · show unescape ('\\' :: '\\' :: rest) = _
    rw [unescape] <;> simp
  · show unescape ('\\' :: '"' :: rest) = _
    rw [unescape] <;> simp
  · show unescape ('\\' :: 'n' :: rest) = _
    rw [unescape]
  · show unescape ('\\' :: 'r' :: rest) = _
    rw [unescape]
  · show unescape ('\\' :: 't' :: rest) = _
    rw [unescape]
  · rw [List.singleton_append, unescape] <;> simp_all

/-- What is written inside a literal stands for the text. -/
theorem unescape_writeChar (text : List Char) : unescape (text.flatMap writeChar) = text := by
  induction text with
  | nil => rfl
  | cons c text ih => rw [List.flatMap_cons, unescape_writeChar_append, ih]

theorem literal_reads {text : String} : Reads literal text (.literal text :: ws) ws := by
  refine Reads.token rfl fun _ previous behind _ _ => ⟨'"', ?_⟩
  have hchars : (Word.literal text).chars ++ behind =
      '"' :: (text.toList.flatMap writeChar ++ '"' :: behind) := by
    rw [Word.chars, List.cons_append, List.cons_append, List.append_assoc, List.singleton_append]
  rw [hchars]
  simp only [literalBody_writeChar, Option.map_some, unescape_writeChar, String.ofList_toList]
  rfl

theorem literal_refuses (hk : w.kind ∉ [.literal, .selector]) : Refuses literal (w :: ws) := by
  have ht : w.touches = false := Word.touches_of_kind hk (by decide)
  refine Refuses.token ht fun hfit previous behind _ _ => ?_
  obtain ⟨c, rest, hc, ho⟩ := Word.chars_cons hfit
  have hq := Word.Kind.ne_quote ho fun h => hk (by simp [h])
  rw [hc]
  split
  · next he => exact absurd (List.cons.inj he).1 hq
  · rfl

/-! ## Selectors -/

theorem at_touching {cursor : Cursor} (h : At (w :: ws) cursor) (hw : w.touches = true) :
    ∃ behind, cursor.rest = w.chars ++ behind ∧ Layout false ws behind := by
  obtain ⟨-, hlayout⟩ := h
  generalize hwords : w :: ws = words at hlayout
  generalize cursor.rest = text at hlayout ⊢
  cases hlayout with
  | done => cases hwords
  | touching _ hbehind =>
      cases hwords
      exact ⟨_, rfl, hbehind⟩
  | apart ht =>
      cases hwords
      rw [hw] at ht
      cases ht

theorem selector_reads_field {text : String} :
    Reads selector (.inl text) (.field text :: ws) ws := by
  intro cursor hat
  obtain ⟨hfit, hfits⟩ := List.forall_mem_cons.1 hat.fits
  obtain ⟨behind, hrest, hbehind⟩ := at_touching hat rfl
  obtain ⟨last, hl⟩ :=
    word_eq_of_beginsAs (some '.') hfit (not_isNameChar_of_bounded hbehind.bounded)
  refine ⟨⟨some last, behind⟩, ?_, hfits, hbehind⟩
  rw [selector, hrest]
  exact orElse_eq_some.2 (.inl (bind_eq_some.2 ⟨_, _, hl, rfl⟩))

theorem selector_reads_item {index : Nat} :
    Reads selector (.inr index) (.item index :: ws) ws := by
  intro cursor hat
  obtain ⟨-, hfits⟩ := List.forall_mem_cons.1 hat.fits
  obtain ⟨behind, hrest, hbehind⟩ := at_touching hat rfl
  obtain ⟨last, hl⟩ := digits_word_eq (some '.') index (not_isDigit_of_bounded hbehind.bounded)
  have hnone : word isNameStart isNameChar ⟨some '.', (Word.number index).chars ++ behind⟩ = none :=
    word_eq_none_of_opens trivial fun _ ho => isNameStart_eq_false_of_isDigit ho
  refine ⟨⟨some last, behind⟩, ?_, hfits, hbehind⟩
  rw [selector, hrest]
  refine orElse_eq_some.2 (.inr ⟨bind_eq_none hnone, bind_eq_some.2 ⟨_, _, hl, ?_⟩⟩)
  rw [String.toList_ofList, Text.decimalValue_toDigits]
  rfl

/-- A text that does not make a selector of a full stop in front of it. -/
def NoSelector (text : List Char) : Prop :=
  ∀ c ∈ text.head?, isNameStart c = false ∧ c.isDigit = false

theorem noSelector_nil : NoSelector [] := fun _ h => nomatch h

/-- What stands behind a text matters only if the text is empty. -/
theorem NoSelector.append {front other : List Char} (h : NoSelector (front ++ behind))
    (hother : NoSelector behind → NoSelector other) : NoSelector (front ++ other) := by
  cases front with
  | nil => exact hother h
  | cons c front => exact h

theorem noSelector_of_bounded (hb : Bounded behind) : NoSelector behind := by
  intro c hc
  refine ⟨Bool.eq_false_iff.2 fun hs => ?_, not_isDigit_of_bounded hb c hc⟩
  exact absurd (isNameChar_of_isNameStart hs) (by rw [not_isNameChar_of_bounded hb c hc]; decide)

/-- A full stop that does not touch a name or a number selects nothing. -/
theorem selector_eq_none (h : NoSelector behind) : selector ⟨previous, '.' :: behind⟩ = none := by
  have hname : word isNameStart isNameChar (.past '.' behind) = none :=
    word_eq_none fun c hc => (h c hc).1
  have hdigits : word Char.isDigit Char.isDigit (.past '.' behind) = none :=
    word_eq_none fun c hc => (h c hc).2
  simp only [selector]
  rw [orElse, bind_eq_none hname]
  exact bind_eq_none hdigits

theorem noSelector_of_selector (h : selector ⟨previous, '.' :: behind⟩ = none) :
    NoSelector behind := by
  have refused {start others : Char → Bool} {f : String → String ⊕ Nat} {c : Char}
      {rest : List Char}
      (hword : (do return f (← word start others)) (Cursor.past '.' (c :: rest)) = none) :
      start c = false := by
    refine Bool.eq_false_iff.2 fun hc => ?_
    have hread : word start others (.past '.' (c :: rest)) = some _ := if_pos hc
    rw [bind_of_some hread] at hword
    cases hword
  simp only [selector, orElse] at h
  split at h
  · next hname =>
    intro c hc
    obtain ⟨rest, rfl⟩ := List.head?_eq_some_iff.1 hc
    exact ⟨refused hname, refused h⟩
  · cases h

theorem selector_eq_none_of_head {text : List Char} (h : ∀ c ∈ text.head?, c ≠ '.') :
    selector ⟨previous, text⟩ = none := by
  rw [selector]
  split
  · next he => exact absurd rfl (h '.' (by rw [show text = _ from he]; rfl))
  · rfl

theorem Fill.head_ne_dot {gap : List Char} (h : Fill gap) : ∀ c ∈ gap.head?, c ≠ '.' := by
  intro c hc
  cases h with
  | nil => cases hc
  | blank hb =>
      cases hc
      rintro rfl
      exact absurd hb (by decide)
  | comment => cases hc; decide

theorem selector_refuses (h : ∀ w ∈ ws.head?, w.touches = false) : Refuses selector ws := by
  rintro ⟨previous, text⟩ ⟨hfits, hlayout⟩
  generalize text = rest at hlayout
  cases hlayout with
  | done hgap => exact selector_eq_none_of_head hgap.head_ne_dot
  | touching htouches =>
      rw [h _ rfl] at htouches
      cases htouches
  | @apart _ gap w ws text _ hgap _ hbehind =>
      cases gap with
      | cons c gap =>
          refine selector_eq_none_of_head fun d hd => ?_
          cases hd
          exact hgap.head_ne_dot c rfl
      | nil =>
          have hfit := hfits w List.mem_cons_self
          obtain ⟨c, rest, hc, ho⟩ := Word.chars_cons hfit
          by_cases hd : c = '.'
          · -- Only the sign that ends a declaration begins with a full stop.
            cases w with
            | sign sign =>
                have hdot : ∀ sign ∈ signs, '.' ∈ sign.toList.head? → sign.toList = ['.'] := by
                  decide
                have hs := hdot sign hfit (by rw [show sign.toList = _ from hc, hd]; rfl)
                show selector ⟨previous, sign.toList ++ text⟩ = none
                rw [hs]
                exact selector_eq_none (noSelector_of_bounded hbehind.bounded)
            | field | item => exact absurd (h _ rfl) (by simp [Word.touches])
            | _ => exact absurd (Word.Kind.opens_dot (hd ▸ ho)) (by simp [Word.kind])
          · refine selector_eq_none_of_head fun d hhead => ?_
            rw [List.nil_append, hc] at hhead
            cases hhead
            exact hd

end Fern
