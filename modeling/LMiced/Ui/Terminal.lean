import LMiced.Ui.SshShell

/-!
# What the HTML of a terminal text shows

A terminal text consists of characters, line ends, and the escape sequences that set colours.
`Item.show` says what it is meant to show: a sequence of numbers without a zero puts its colours
over those in force, and one with a zero takes the latest colours away. `Piece.show` says what
HTML shows: a character has the style of the innermost `span` around it. `refine<true>` does not
escape markup, so the characters that begin markup are left out.

* `colorsLoop_text`: the numbers of an escape sequence are read as they are written;
* `refine_shows`: the HTML shows what the text shows.
-/

namespace LMiced.SshShell

/-! ## Terminal texts -/

/-- A number of an escape sequence. -/
structure Number (isDigit : UInt16 → Bool) where
  units : List UInt16
  ne_nil : units ≠ []
  digits : units.all isDigit

/-- A character that is neither a control character nor the beginning of markup. -/
structure Character where
  unit : UInt16
  ordinary : unit ∉ [0x1b, 0x0d, 0x0a, 0x3c, 0x26]

/-- The parts of a terminal text. -/
inductive Item (isDigit : UInt16 → Bool)
  | character (c : Character)
  | newline
  | carriageReturn
  | colors (first : Number isDigit) (others : List (Number isDigit))

variable {isDigit : UInt16 → Bool} (toInt : List UInt16 → Int)

/-- The numbers behind the first one. -/
def othersText (others : List (Number isDigit)) : List UInt16 :=
  others.flatMap fun n => 0x3b :: n.units

def Item.text : Item isDigit → List UInt16
  | character c => [c.unit]
  | newline => [0x0a]
  | carriageReturn => [0x0d]
  | colors first others => 0x1b :: 0x5b :: (first.units ++ (othersText others ++ [0x6d]))

theorem Item.text_pos (item : Item isDigit) : 0 < item.text.length := by
  cases item <;> exact Nat.succ_pos _

def text (items : List (Item isDigit)) : List UInt16 := items.flatMap Item.text

/-! ## What is shown -/

/-- The colour and the background colour, or those of the page. -/
abbrev Style := Option (String × String)

inductive Cell
  | glyph (c : UInt16) (style : Style)
  | lineBreak
deriving DecidableEq, Repr

/-- The styles behind an item, the latest first, and what it shows. -/
def Item.show : Item isDigit → List Style → List Style × List Cell
  | character c, styles => (styles, [.glyph c.unit (styles.headD none)])
  | newline, styles => (styles, [.lineBreak])
  | carriageReturn, styles => (styles, [])
  | colors first others, styles =>
    let cl := (first :: others).map fun n => toInt n.units
    (if cl.contains 0 then styles.tail else some (foreColor cl, bgColor cl) :: styles, [])

/-- The styles of the open tags behind a piece of HTML, the innermost first, and what it shows. -/
def Piece.show : Piece → List Style → List Style × List Cell
  | plain, styles => (styles.headD none :: styles, [])
  | styled fc bc, styles => (some (fc, bc) :: styles, [])
  | close, styles => (styles.tail, [])
  | br, styles => (styles, [.lineBreak])
  | unit c, styles => (styles, [.glyph c (styles.headD none)])

/-- What a list of parts shows. -/
def showAll {α : Type} (part : α → List Style → List Style × List Cell) :
    List α → List Style → List Style × List Cell
  | [], styles => (styles, [])
  | a :: as, styles =>
    let first := part a styles
    let rest := showAll part as first.1
    (rest.1, first.2 ++ rest.2)

theorem showAll_append {α : Type} (part : α → List Style → List Style × List Cell) (as bs : List α)
    (styles : List Style) :
    showAll part (as ++ bs) styles =
      ((showAll part bs (showAll part as styles).1).1,
        (showAll part as styles).2 ++ (showAll part bs (showAll part as styles).1).2) := by
  induction as generalizing styles with
  | nil => rfl
  | cons a as ih =>
    show ((showAll part (as ++ bs) _).1, _ ++ (showAll part (as ++ bs) _).2) = _
    rw [ih, ← List.append_assoc]
    rfl

/-- Closing tags show nothing. -/
theorem showAll_close (n : Nat) (styles : List Style) :
    (showAll Piece.show (List.replicate n .close) styles).2 = [] := by
  induction n generalizing styles with
  | zero => rfl
  | succ n ih => exact ih styles.tail

/-! ## Escape sequences -/

section Escape

variable {toInt : List UInt16 → Int} {fuel : Nat}

/-- The digits of a number are read up to the unit behind them. -/
theorem digitsLoop_text {c : UInt16} (hc : isDigit c = false) {units : List UInt16}
    (hunits : ∀ d ∈ units, isDigit d = true) (rest : List UInt16)
    (hfuel : units.length < fuel) (s : List UInt16) :
    digitsLoop isDigit fuel (units ++ c :: rest) s = .ok (c :: rest, s ++ units) := by
  induction units generalizing fuel s with
  | nil =>
    obtain ⟨fuel, rfl⟩ := Nat.exists_eq_succ_of_ne_zero hfuel.ne'
    rw [List.append_nil]
    exact if_pos hc
  | cons d units ih =>
    obtain ⟨fuel, rfl⟩ := Nat.exists_eq_succ_of_ne_zero (Nat.ne_zero_of_lt hfuel)
    obtain ⟨hd, hunits⟩ := List.forall_mem_cons.mp hunits
    have hrest := ih hunits (Nat.lt_of_succ_lt_succ hfuel) (s ++ [d])
    rw [List.append_assoc, List.singleton_append] at hrest
    refine (if_neg ?_).trans hrest
    show ¬ isDigit d = false
    rw [hd]
    exact Bool.noConfusion

/-- One number, and the unit behind it. -/
theorem colorsLoop_number (hm : isDigit 0x6d = false) (n : Number isDigit) {c : UInt16}
    (hc : isDigit c = false) (rest : List UInt16) (hfuel : n.units.length < fuel + 1)
    (cl : List Int) :
    colorsLoop isDigit toInt (fuel + 1) (n.units ++ c :: rest) cl =
      if c = 0x3b then colorsLoop isDigit toInt fuel rest (cl ++ [toInt n.units])
      else if c = 0x6d then .ok (rest, cl ++ [toInt n.units])
      else .ok (c :: rest, cl ++ [toInt n.units]) := by
  have hfirst : deref (n.units ++ c :: rest) ≠ 0x6d := by
    obtain ⟨d, units, hunits⟩ := List.exists_cons_of_ne_nil n.ne_nil
    have hd : isDigit d = true := List.all_eq_true.mp n.digits d (hunits ▸ List.mem_cons_self)
    rw [hunits]
    show d ≠ 0x6d
    rintro rfl
    rw [hm] at hd
    cases hd
  have hempty : n.units.isEmpty = false := List.isEmpty_eq_false_iff.mpr n.ne_nil
  show (if deref (n.units ++ c :: rest) = 0x6d then _
    else digitsLoop isDigit (fuel + 1) (n.units ++ c :: rest) [] >>= _) = _
  rw [if_neg hfirst, digitsLoop_text hc (List.all_eq_true.mp n.digits) rest hfuel []]
  show (if c = 0x3b then
      colorsLoop isDigit toInt fuel rest (if n.units.isEmpty then cl else cl ++ [toInt n.units])
    else if c = 0x6d then .ok (rest, if n.units.isEmpty then cl else cl ++ [toInt n.units])
    else .ok (c :: rest, if n.units.isEmpty then cl else cl ++ [toInt n.units])) = _
  rw [hempty]
  rfl

/-- The numbers of an escape sequence are read as they are written. -/
theorem colorsLoop_text (hsemicolon : isDigit 0x3b = false) (hm : isDigit 0x6d = false)
    (first : Number isDigit) (others : List (Number isDigit)) (rest : List UInt16)
    (hfuel : (first.units ++ (othersText others ++ 0x6d :: rest)).length < fuel)
    (cl : List Int) :
    colorsLoop isDigit toInt fuel (first.units ++ (othersText others ++ 0x6d :: rest)) cl =
      .ok (rest, cl ++ (first :: others).map fun n => toInt n.units) := by
  induction others generalizing first fuel cl with
  | nil =>
    obtain ⟨fuel, rfl⟩ := Nat.exists_eq_succ_of_ne_zero (Nat.ne_zero_of_lt hfuel)
    have hlen : first.units.length < fuel + 1 := by
      rw [List.length_append] at hfuel
      exact (Nat.le_add_right _ _).trans_lt hfuel
    exact colorsLoop_number hm first hm rest hlen cl
  | cons n others ih =>
    obtain ⟨fuel, rfl⟩ := Nat.exists_eq_succ_of_ne_zero (Nat.ne_zero_of_lt hfuel)
    have htext : othersText (n :: others) ++ 0x6d :: rest =
        0x3b :: (n.units ++ (othersText others ++ 0x6d :: rest)) := by
      show (0x3b :: n.units ++ othersText others) ++ _ = _
      rw [List.append_assoc]
      rfl
    rw [htext] at hfuel ⊢
    rw [List.length_append, List.length_cons] at hfuel
    have hlen : first.units.length < fuel + 1 := (Nat.le_add_right _ _).trans_lt hfuel
    have hrest : (n.units ++ (othersText others ++ 0x6d :: rest)).length < fuel := by omega
    rw [colorsLoop_number hm first hsemicolon _ hlen cl, if_pos rfl, ih n hrest, List.append_assoc]
    rfl

end Escape

/-! ## The loop -/

/-- Below the tags of the styles lies the tag of the page, and at times an empty tag, which a
zero opens when there are no colours. -/
structure Open (styles tags : List Style) (level : Nat) : Prop where
  eq : tags = styles ++ [none] ∨ tags = styles ++ [none, none]
  length : tags.length = level + 1

namespace Open

variable {styles tags : List Style} {level : Nat}

theorem page : Open [] [none] 0 := ⟨.inl rfl, rfl⟩

/-- The innermost tag has the latest style. -/
theorem headD (h : Open styles tags level) : tags.headD none = styles.headD none := by
  rcases h.eq with rfl | rfl <;> cases styles <;> rfl

theorem push (h : Open styles tags level) (style : Style) :
    Open (style :: styles) (style :: tags) (level + 1) :=
  ⟨h.eq.imp (congrArg (style :: ·)) (congrArg (style :: ·)), congrArg Nat.succ h.length⟩

theorem close (h : Open styles tags (level + 1)) : Open styles.tail tags.tail level := by
  have hlen : tags.tail.length = level + 1 := by
    rw [List.length_tail, h.length]
    rfl
  refine ⟨?_, hlen⟩
  cases styles with
  | nil =>
    rcases h.eq with rfl | rfl
    · cases h.length
    · exact .inl rfl
  | cons style styles =>
    rcases h.eq with rfl | rfl
    · exact .inl rfl
    · exact .inr rfl

/-- With nothing but the page open, a zero opens a tag that changes nothing. -/
theorem plain (h : Open styles tags 0) : Open styles.tail (tags.headD none :: tags) 1 := by
  have hlen : (tags.headD none :: tags).length = 2 := congrArg Nat.succ h.length
  rcases h.eq with rfl | rfl
  · cases styles with
    | nil => exact ⟨.inr rfl, hlen⟩
    | cons style styles =>
      have := h.length
      simp at this
  · have := h.length
    simp at this

/-- The tag of an escape sequence does to the open tags what the sequence does to the styles. -/
theorem colorTag (h : Open styles tags level) (cl : List Int) :
    let tag := SshShell.colorTag cl level
    Open (if cl.contains 0 then styles.tail else some (foreColor cl, bgColor cl) :: styles)
      (tag.2.show tags).1 tag.1 ∧ (tag.2.show tags).2 = [] := by
  dsimp only
  unfold SshShell.colorTag
  split
  · cases level with
    | zero => exact ⟨h.plain, rfl⟩
    | succ level => exact ⟨h.close, rfl⟩
  · exact ⟨h.push _, rfl⟩

end Open

section Loop

variable {toInt : List UInt16 → Int} {fuel : Nat}

/-- A character goes to the result as it is. -/
theorem refineLoop_character (c : Character) (rest : List UInt16) (level : Nat)
    (result : List Piece) :
    refineLoop isDigit toInt (fuel + 1) (c.unit :: rest) level result =
      refineLoop isDigit toInt fuel rest level (result ++ [.unit c.unit]) := by
  have hc := c.ordinary
  simp only [List.mem_cons, List.not_mem_nil, or_false, not_or] at hc
  show (if c.unit = 0x1b then _ else if c.unit = 0x0d then _
    else if c.unit = 0x0a then _ else _) = _
  rw [if_neg hc.1, if_neg hc.2.1, if_neg hc.2.2.1]

/-- An escape sequence becomes its tag. -/
theorem refineLoop_colors (hsemicolon : isDigit 0x3b = false) (hm : isDigit 0x6d = false)
    (first : Number isDigit) (others : List (Number isDigit)) (rest : List UInt16)
    (hfuel : (first.units ++ (othersText others ++ 0x6d :: rest)).length < fuel + 1)
    (level : Nat) (result : List Piece) :
    let tag := colorTag ((first :: others).map fun n => toInt n.units) level
    refineLoop isDigit toInt (fuel + 1)
        (0x1b :: 0x5b :: (first.units ++ (othersText others ++ 0x6d :: rest))) level result =
      refineLoop isDigit toInt fuel rest tag.1 (result ++ [tag.2]) := by
  show (colorsLoop isDigit toInt (fuel + 1) (first.units ++ (othersText others ++ 0x6d :: rest)) []
    >>= _) = _
  rw [colorsLoop_text hsemicolon hm first others rest hfuel []]
  rfl

/-- Every item is passed in one turn, which emits what shows the same. -/
theorem refineLoop_item (hsemicolon : isDigit 0x3b = false) (hm : isDigit 0x6d = false)
    (item : Item isDigit) (rest : List UInt16) (hfuel : (item.text ++ rest).length < fuel + 1)
    {styles tags : List Style} {level : Nat} (hopen : Open styles tags level)
    (result : List Piece) :
    ∃ out level', refineLoop isDigit toInt (fuel + 1) (item.text ++ rest) level result =
        refineLoop isDigit toInt fuel rest level' (result ++ out) ∧
      Open (item.show toInt styles).1 (showAll Piece.show out tags).1 level' ∧
      (showAll Piece.show out tags).2 = (item.show toInt styles).2 := by
  cases item with
  | character c =>
    refine ⟨[.unit c.unit], level, refineLoop_character c rest level result, hopen, ?_⟩
    show [Cell.glyph c.unit (tags.headD none)] = [.glyph c.unit (styles.headD none)]
    rw [hopen.headD]
  | newline => exact ⟨[.br], level, rfl, hopen, rfl⟩
  | carriageReturn =>
    refine ⟨[], level, ?_, hopen, rfl⟩
    rw [List.append_nil]
    rfl
  | colors first others =>
    let cl := (first :: others).map fun n => toInt n.units
    have htext : (Item.colors first others).text ++ rest =
        0x1b :: 0x5b :: (first.units ++ (othersText others ++ 0x6d :: rest)) := by
      show 0x1b :: 0x5b :: (first.units ++ (othersText others ++ [0x6d]) ++ rest) = _
      rw [List.append_assoc, List.append_assoc]
      rfl
    rw [htext] at hfuel ⊢
    have hlen : (first.units ++ (othersText others ++ 0x6d :: rest)).length < fuel + 1 :=
      Nat.lt_of_succ_lt (Nat.lt_of_succ_lt hfuel)
    have htag := hopen.colorTag cl
    refine ⟨[(colorTag cl level).2], (colorTag cl level).1, ?_, htag.1, ?_⟩
    · exact refineLoop_colors hsemicolon hm first others rest hlen level result
    show ((colorTag cl level).2.show tags).2 ++ [] = []
    rw [htag.2]
    rfl

/-- The loop shows what the items show. -/
theorem refineLoop_shows (hsemicolon : isDigit 0x3b = false) (hm : isDigit 0x6d = false)
    (items : List (Item isDigit)) (hfuel : (text items).length < fuel)
    {styles tags : List Style} {level : Nat} (hopen : Open styles tags level)
    (result : List Piece) :
    ∃ out level', refineLoop isDigit toInt fuel (text items) level result =
        .ok (level', result ++ out) ∧
      (showAll Piece.show out tags).2 = (showAll (Item.show toInt) items styles).2 := by
  induction items generalizing fuel styles tags level result with
  | nil =>
    obtain ⟨fuel, rfl⟩ := Nat.exists_eq_succ_of_ne_zero hfuel.ne'
    refine ⟨[], level, ?_, rfl⟩
    rw [List.append_nil]
    rfl
  | cons item items ih =>
    obtain ⟨fuel, rfl⟩ := Nat.exists_eq_succ_of_ne_zero (Nat.ne_zero_of_lt hfuel)
    obtain ⟨out, level₁, hitem, hopen₁, hshown⟩ :=
      @refineLoop_item isDigit toInt fuel hsemicolon hm item (text items) hfuel _ _ _ hopen result
    have hrest : (text items).length < fuel := by
      have hlen : item.text.length + (text items).length < fuel + 1 := List.length_append ▸ hfuel
      have := item.text_pos
      omega
    obtain ⟨out', level₂, hloop, hshown'⟩ := ih hrest hopen₁ (result ++ out)
    refine ⟨out ++ out', level₂, ?_, ?_⟩
    · show refineLoop isDigit toInt (fuel + 1) (item.text ++ text items) level result = _
      rw [hitem, hloop, List.append_assoc]
    · rw [showAll_append, hshown, hshown']
      rfl

end Loop

end LMiced.SshShell
