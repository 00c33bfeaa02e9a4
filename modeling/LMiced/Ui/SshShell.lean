import Mathlib

/-!
# The text of the terminal as HTML

`refine<true>` of `ui/plugin/sshshell.cpp` turns the text that a remote shell writes into HTML:
the escape sequences for colours become `span` tags. The text is a list of UTF-16 code units,
and an iterator into it is the rest of the text; behind the last unit lies a zero. What counts
as a digit, and the number that digits stand for, are functions of Qt and parameters here.

* `colorsLoop_ok`, `refineLoop_ok`: the loops end, without an iterator that leaves the text;
* `refineTrue_balanced`: the tags that are emitted are balanced.
-/

namespace LMiced.SshShell

/-! ## The colours -/

/-- The colour of the last number that the table has. -/
def pickColor (table : List (Int × String)) (color : String) (cl : List Int) : String :=
  cl.foldl (fun color c => table.foldl (fun color m => if m.1 = c then m.2 else color) color) color

/-- `bg_color`. -/
def bgColor (cl : List Int) : String :=
  pickColor
    [(49, "black"), (40, "black"), (41, "red"), (42, "green"), (43, "yellow"), (44, "blue"),
      (45, "magenta"), (46, "cyan"), (47, "LightGray"), (100, "DarkGray"), (101, "LightRed"),
      (102, "LightGreen"), (103, "LightYellow"), (104, "LightBlue"), (105, "LightMagenta"),
      (106, "LightCyan"), (107, "white")]
    "white" cl

/-- `fore_color`. -/
def foreColor (cl : List Int) : String :=
  pickColor
    [(39, "black"), (30, "black"), (31, "red"), (32, "green"), (33, "yellow"), (34, "blue"),
      (35, "magenta"), (36, "cyan"), (37, "LightGray"), (90, "DarkGray"), (91, "LightRed"),
      (92, "LightGreen"), (93, "LightYellow"), (94, "LightBlue"), (95, "LightMagenta"),
      (96, "LightCyan"), (97, "white")]
    "black" cl

/-! ## The output -/

/-- What is appended to the result. -/
inductive Piece
  /-- `<span>`. -/
  | plain
  /-- `<span style="...">` with a colour and a background colour. -/
  | styled (fc bc : String)
  /-- `</span>`. -/
  | close
  /-- `<br>`. -/
  | br
  /-- A unit of the text. -/
  | unit (c : UInt16)
deriving DecidableEq, Repr

def Piece.opens : Piece → Bool
  | plain => true
  | styled _ _ => true
  | close => false
  | br => false
  | unit _ => false

def Piece.closes (piece : Piece) : Bool := piece = .close

/-- Every beginning of the output has at least as many opening tags as closing ones, and the
whole output has `level` more. -/
structure Nested (level : Nat) (out : List Piece) : Prop where
  le : ∀ start, start <+: out → start.countP Piece.closes ≤ start.countP Piece.opens
  total : out.countP Piece.opens = out.countP Piece.closes + level

/-! ## The iterator -/

/-- What keeps a loop from its end. -/
inductive Fault
  | outOfFuel
  | pastEnd
deriving DecidableEq, Repr

/-- `*ite`. -/
def deref (ite : List UInt16) : UInt16 := ite.headD 0

/-- `ite++`. -/
def next : List UInt16 → Except Fault (List UInt16)
  | [] => .error .pastEnd
  | _ :: rest => .ok rest

section Refine

variable (isDigit : UInt16 → Bool) (toInt : List UInt16 → Int)

/-- The loop over the digits of a number. -/
def digitsLoop : Nat → List UInt16 → List UInt16 → Except Fault (List UInt16 × List UInt16)
  | 0, _, _ => .error .outOfFuel
  | fuel + 1, ite, s =>
    let ch := deref ite
    if isDigit ch = false then .ok (ite, s)
    else do
      let ite ← next ite
      digitsLoop fuel ite (s ++ [ch])

/-- `while(*ite != "m")`. -/
def colorsLoop : Nat → List UInt16 → List Int → Except Fault (List UInt16 × List Int)
  | 0, _, _ => .error .outOfFuel
  | fuel + 1, ite, cl =>
    if deref ite = 0x6d then .ok (ite, cl)
    else do
      let (ite, s) ← digitsLoop isDigit (fuel + 1) ite []
      let cl := if s.isEmpty then cl else cl ++ [toInt s]
      if deref ite = 0x3b then
        let ite ← next ite
        colorsLoop fuel ite cl
      else if deref ite = 0x6d then
        let ite ← next ite
        .ok (ite, cl)
      else .ok (ite, cl)

/-- The level and the tag behind the numbers of an escape sequence. A zero closes a tag, or
opens one when none is open. -/
def colorTag (cl : List Int) (level : Nat) : Nat × Piece :=
  if cl.contains 0 then
    if 0 < level then (level - 1, .close) else (level + 1, .plain)
  else (level + 1, .styled (foreColor cl) (bgColor cl))

/-- `while(ite != end)`. -/
def refineLoop : Nat → List UInt16 → Nat → List Piece → Except Fault (Nat × List Piece)
  | 0, _, _, _ => .error .outOfFuel
  | _ + 1, [], level, result => .ok (level, result)
  | fuel + 1, c :: rest, level, result =>
    if c = 0x1b then
      if deref rest = 0x5b then do
        let ite ← next rest
        let (ite, cl) ← colorsLoop isDigit toInt (fuel + 1) ite []
        let tag := colorTag cl level
        refineLoop fuel ite tag.1 (result ++ [tag.2])
      else refineLoop fuel rest level result
    else if c = 0x0d then refineLoop fuel rest level result
    else if c = 0x0a then refineLoop fuel rest level (result ++ [.br])
    else refineLoop fuel rest level (result ++ [.unit c])

/-- `refine<true>`. A text that begins with a beep stays as it is; the first unit of an empty
text is not there. -/
def refineTrue (fuel : Nat) (data : List UInt16) : Except Fault (List Piece) :=
  match data with
  | [] => .error .pastEnd
  | c :: _ =>
    if c = 0x7 then .ok (data.map .unit)
    else do
      let (level, result) ← refineLoop isDigit toInt fuel data 0 []
      .ok (.plain :: (result ++ List.replicate level .close) ++ [.close])

end Refine

/-! ## The iterator stays inside -/

section Ends

variable {isDigit : UInt16 → Bool} {toInt : List UInt16 → Int} {fuel : Nat}

/-- The zero behind the text is no digit, so the digits end before it. -/
theorem digitsLoop_ok (hzero : isDigit 0 = false) {ite : List UInt16} (h : ite.length < fuel)
    (s : List UInt16) :
    ∃ ite' s', digitsLoop isDigit fuel ite s = .ok (ite', s') ∧ ite'.length ≤ ite.length := by
  induction fuel generalizing ite s with
  | zero => cases h
  | succ fuel ih =>
    unfold digitsLoop
    dsimp only
    split
    · exact ⟨ite, s, rfl, le_rfl⟩
    · next hdigit =>
      cases ite with
      | nil => exact absurd hzero hdigit
      | cons c rest =>
        obtain ⟨ite', s', hloop, hle⟩ := ih (Nat.lt_of_succ_lt_succ h) (s ++ [c])
        exact ⟨ite', s', hloop, Nat.le_succ_of_le hle⟩

/-- Every turn but the last moves past a semicolon. -/
theorem colorsLoop_ok (hzero : isDigit 0 = false) {ite : List UInt16} (h : ite.length < fuel)
    (cl : List Int) :
    ∃ ite' cl', colorsLoop isDigit toInt fuel ite cl = .ok (ite', cl') ∧
      ite'.length ≤ ite.length := by
  induction fuel generalizing ite cl with
  | zero => cases h
  | succ fuel ih =>
    unfold colorsLoop
    split
    · exact ⟨ite, cl, rfl, le_rfl⟩
    · obtain ⟨ite₁, s, hdigits, hle⟩ := digitsLoop_ok hzero h []
      rw [hdigits]
      dsimp only [bind, Except.bind]
      cases ite₁ with
      | nil => exact ⟨[], _, rfl, Nat.zero_le _⟩
      | cons c rest =>
        have hrest : rest.length < ite.length := hle
        split
        · obtain ⟨ite', cl', hloop, hle'⟩ := ih (show rest.length < fuel by omega)
            (if s.isEmpty then cl else cl ++ [toInt s])
          exact ⟨ite', cl', hloop, by omega⟩
        · split
          · exact ⟨rest, _, rfl, hrest.le⟩
          · exact ⟨c :: rest, _, rfl, hle⟩

end Ends

/-! ## The tags -/

namespace Nested

variable {level : Nat} {out : List Piece}

theorem plain : Nested 1 [.plain] := by
  refine ⟨fun start h => ?_, rfl⟩
  rcases List.prefix_cons_iff.mp h with rfl | ⟨t, rfl, ht⟩
  · exact le_rfl
  · rw [List.prefix_nil.mp ht]
    decide

/-- The beginnings of a longer output. -/
theorem le_snoc {piece : Piece} (h : Nested level out)
    (hle : (out ++ [piece]).countP Piece.closes ≤ (out ++ [piece]).countP Piece.opens) :
    ∀ start, start <+: out ++ [piece] → start.countP Piece.closes ≤ start.countP Piece.opens := by
  intro start hstart
  rcases List.prefix_concat_iff.mp hstart with rfl | hstart
  · exact hle
  · exact h.le start hstart

/-- A piece that closes nothing. -/
theorem snoc (h : Nested level out) (piece : Piece) (hno : piece.closes = false) :
    Nested (level + if piece.opens then 1 else 0) (out ++ [piece]) := by
  have htotal := h.total
  have hopens : (out ++ [piece]).countP Piece.opens =
      (out ++ [piece]).countP Piece.closes + (level + if piece.opens then 1 else 0) := by
    cases hopen : piece.opens with
    | true =>
      simp [List.countP_append, hno, hopen]
      omega
    | false => simpa [List.countP_append, hno, hopen] using htotal
  exact ⟨h.le_snoc (by omega), hopens⟩

theorem snoc_close (h : Nested (level + 1) out) : Nested level (out ++ [.close]) := by
  have htotal := h.total
  have hopens : (out ++ [Piece.close]).countP Piece.opens =
      (out ++ [Piece.close]).countP Piece.closes + level := by
    simp [List.countP_append, Piece.opens, Piece.closes]
    omega
  exact ⟨h.le_snoc (by omega), hopens⟩

theorem append_close {n : Nat} (h : Nested (n + level) out) :
    Nested level (out ++ List.replicate n .close) := by
  induction n generalizing out with
  | zero => simpa using h
  | succ n ih =>
    have hlevel : n + 1 + level = n + level + 1 := by omega
    rw [List.replicate_succ, List.append_cons]
    exact ih (hlevel ▸ h).snoc_close

/-- The tag of an escape sequence keeps track of the level. -/
theorem colorTag (h : Nested (level + 1) out) (cl : List Int) :
    Nested ((colorTag cl level).1 + 1) (out ++ [(colorTag cl level).2]) := by
  unfold SshShell.colorTag
  split
  · split
    · next hpos =>
      have hlevel : level - 1 + 1 = level := by omega
      exact Nested.snoc_close (hlevel.symm ▸ h)
    · exact h.snoc .plain rfl
  · exact h.snoc (.styled _ _) rfl

end Nested

section Ends

variable {isDigit : UInt16 → Bool} {toInt : List UInt16 → Int} {fuel : Nat}

/-- The loop ends, with as many open tags as it says. The outermost tag is open throughout. -/
theorem refineLoop_ok (hzero : isDigit 0 = false) {ite : List UInt16} (h : ite.length < fuel)
    {level : Nat} {result : List Piece} (hnested : Nested (level + 1) (.plain :: result)) :
    ∃ level' result', refineLoop isDigit toInt fuel ite level result = .ok (level', result') ∧
      Nested (level' + 1) (.plain :: result') := by
  induction fuel generalizing ite level result with
  | zero => cases h
  | succ fuel ih =>
    cases ite with
    | nil => exact ⟨level, result, rfl, hnested⟩
    | cons c rest =>
      have hrest : rest.length < fuel := Nat.lt_of_succ_lt_succ h
      unfold refineLoop
      split
      · split
        · next hbracket =>
          cases rest with
          | nil => cases hbracket
          | cons d rest =>
            have hlen : rest.length < fuel + 1 := Nat.lt_succ_of_lt (Nat.lt_of_succ_lt hrest)
            obtain ⟨ite', cl, hcolors, hle⟩ :=
              @colorsLoop_ok isDigit toInt _ hzero _ hlen []
            dsimp only [next, bind, Except.bind]
            rw [hcolors]
            have hite : ite'.length < fuel := hle.trans_lt (Nat.lt_of_succ_lt hrest)
            exact ih hite (hnested.colorTag cl)
        · exact ih hrest hnested
      · split
        · exact ih hrest hnested
        · split
          · exact ih hrest (hnested.snoc .br rfl)
          · exact ih hrest (hnested.snoc (.unit c) rfl)

/-- **Every text that is not empty and does not begin with a beep is turned into HTML: the
loops end, no iterator leaves the text, and the tags are balanced.** -/
theorem refineTrue_balanced (hzero : isDigit 0 = false) {data : List UInt16} (hne : data ≠ [])
    (hbeep : data.head? ≠ some 0x7) (hfuel : data.length < fuel) :
    ∃ out, refineTrue isDigit toInt fuel data = .ok out ∧ Nested 0 out := by
  cases data with
  | nil => exact absurd rfl hne
  | cons c rest =>
    have hc : c ≠ 0x7 := fun h => hbeep (congrArg some h)
    obtain ⟨level, result, hloop, hnested⟩ :=
      @refineLoop_ok isDigit toInt _ hzero _ hfuel _ _ Nested.plain
    refine ⟨Piece.plain :: (result ++ List.replicate level Piece.close) ++ [Piece.close], ?_, ?_⟩
    · show (if c = 0x7 then _ else _) = _
      rw [if_neg hc, hloop]
      rfl
    · exact Nested.snoc_close hnested.append_close

end Ends

/-- The digits of ASCII. -/
def asciiDigit (c : UInt16) : Bool := 0x30 ≤ c && c ≤ 0x39

/-- The number that ASCII digits stand for. -/
def asciiInt (s : List UInt16) : Int := s.foldl (fun n c => 10 * n + (c.toNat - 0x30)) 0

/-- A red letter, and a sequence that is cut off. -/
theorem refineTrue_balanced_red :
    ∃ out, refineTrue asciiDigit asciiInt 12
      [0x1b, 0x5b, 0x30, 0x31, 0x3b, 0x33, 0x31, 0x6d, 0x61, 0x1b, 0x5b] = .ok out ∧
        Nested 0 out :=
  refineTrue_balanced (by decide) (by decide) (by decide) (by decide)

end LMiced.SshShell
