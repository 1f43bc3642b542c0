import Inboard.M8Lines

/-!
# Span lists

One GDI scanline call : its records walked once, each pair of x cut to the clip and drawn as a scan,
a fill or a pattern row. The solid walk and the one over a pattern whose rows are rotations of the
first are assembly ; the third is `m8_hw_scan_spans`'s own loop.
-/

set_option linter.unusedSectionVars false

namespace Inboard

/-- A record of GDI's list : the rows from `top` to `bottom`, exclusive, and the x pairs. It lies in
one segment of 64 K, four bytes a pair. -/
structure SpanRec where
  top : ℤ
  bottom : ℤ
  pairs : List (ℤ × ℤ)
  inSegment : 4 * pairs.length + 4 ≤ 65536

namespace SpanRec

/-- The rows of a record inside the clip. -/
def rows (c : Rect) (r : SpanRec) : ℤ × ℤ := (max r.top c.top, min r.bottom c.bottom)

/-- The entries that a record of one row takes at most, as the walk's signed 16-bit word. -/
def entries (r : SpanRec) : ℤ := (BitVec.ofNat 16 (2 * r.pairs.length + 1)).toInt

/-- A record's entries fit the word, as its pairs fit a segment. -/
theorem entries_eq (r : SpanRec) : r.entries = 2 * r.pairs.length + 1 := by
  have h := r.inSegment
  unfold entries
  rw [BitVec.toInt_ofNat', Int.bmod_eq_of_le] <;> omega

end SpanRec

/-- A pair cut to the clip. -/
def cutPair (c : Rect) (p : ℤ × ℤ) : ℤ × ℤ := (max p.1 c.left, min p.2 c.right)

/-- A span's writes. -/
def scanPair (x : ℤ × ℤ) : List (ℕ × ℤ) := [(M8_CUR_X, x.1), (M8_SCAN_TO_X, x.2)]

/-! ## The solid walk -/

namespace Hw

variable (env : EngineEnv) (c : Rect)

/-- The drain of `m8_hw_drain`. -/
def m8HwDrain (s : Hw) : Hw := (s.m8FifoDrain env).2

/-- The drain that a pair asks for with less than `n` entries of room. -/
def drainBelow (n : ℤ) (s : Hw) : Hw := if s.room < n then s.m8HwDrain env else s

/-- The spans of a record that has its room. -/
def roomSpans : List (ℤ × ℤ) → Hw → Hw
  | [], s => s
  | p :: ps, s =>
    roomSpans ps (if (cutPair c p).1 < (cutPair c p).2 then s.outs (scanPair (cutPair c p)) else s)

/-- The spans of a record longer than the FIFO. -/
def slowSpans : List (ℤ × ℤ) → Hw → Hw
  | [], s => s
  | p :: ps, s =>
    let s := s.drainBelow env 2
    slowSpans ps (if (cutPair c p).1 < (cutPair c p).2 then
      (s.outs (scanPair (cutPair c p))).spend 2 else s)

/-- A band's rectangles, of the rows from `y0` to `y1`. -/
def bandSpans (y0 y1 : ℤ) : List (ℤ × ℤ) → Hw → Hw
  | [], s => s
  | p :: ps, s =>
    let s := s.drainBelow env 5
    let x := cutPair c p
    bandSpans y0 y1 ps (if x.1 < x.2 then
      { (s.outs [(M8_CUR_X, x.1), (M8_CUR_Y, y0), (M8_MAJ_AXIS_PCNT, x.2 - x.1 - 1),
          (M8_MULTIFUNC_CNTL, y1 - y0 - 1), (M8_CMD, M8_CMD_FILL)]).spend 5 with scanY := -1 }
      else s)

/-- A record of one row with its room taken : the entry that CUR_Y does not use is given back. -/
def rowSpans (y : ℤ) (ps : List (ℤ × ℤ)) (s : Hw) : Hw :=
  (if y = s.scanY then s.spend (-1) else { s.outpw M8_CUR_Y y with scanY := y }).roomSpans c ps

/-- A record of one row, its room taken whole or a span at a time. -/
def rowRec (y : ℤ) (r : SpanRec) (s : Hw) : Hw :=
  if r.entries ≤ s.room then (s.spend r.entries).rowSpans c y r.pairs
  else
    let s := s.m8HwDrain env
    if r.entries ≤ s.room then (s.spend r.entries).rowSpans c y r.pairs
    else (s.scanRow y).slowSpans env c r.pairs

/-- A record of `M8_SPANS_SOLID`. -/
def solidRec (r : SpanRec) (s : Hw) : Hw :=
  let y := r.rows c
  if y.2 ≤ y.1 ∨ r.pairs = [] then s
  else if y.2 - y.1 = 1 then s.rowRec env c y.1 r
  else s.bandSpans env c y.1 y.2 r.pairs

/-- `M8_SPANS_SOLID`. -/
def m8SpansSolid (recs : List SpanRec) (s : Hw) : Hw :=
  recs.foldl (fun s r => s.solidRec env c r) s.mmForget

end Hw

/-! ## The pattern walks -/

/-- How far row `j` is row 0 rotated left, if it is. -/
def Pat.rotation (pat : Pat) (j : ℕ) : Option ℕ :=
  (List.range 8).find? fun d => decide ((pat 0).rotateLeft d = pat j)

/-- `m8_pat_rotations`. -/
def m8PatRotations (pat : Pat) : Option (ℕ → ℕ) :=
  if (List.range 8).all (fun j => (pat.rotation j).isSome) = true then
    some fun j => (pat.rotation j).getD 0
  else none

namespace Hw

variable (env : EngineEnv) (c : Rect)

/-- A row's spans of `M8_SPANS_PAT`, the row's rotation `rot`. -/
def rotSpans (y : ℤ) (rot : ℕ) : List (ℤ × ℤ) → Hw → Hw
  | [], s => s
  | p :: ps, s =>
    let s := s.drainBelow env 4
    let x := cutPair c p
    rotSpans y rot ps (if x.1 < x.2 then
      ((s.scanRow y).outs [(M8_CUR_X, x.1), (M8_PATT_INDEX, (x.1 + rot) % 8),
        (M8_SCAN_TO_X, x.2)]).spend 3 else s)

/-- A record's rows of `M8_SPANS_PAT`, `n` of them from `y`. -/
def rotRows (rot : ℕ → ℕ) (ps : List (ℤ × ℤ)) : ℤ → ℕ → Hw → Hw
  | _, 0, s => s
  | y, n + 1, s => rotRows rot ps (y + 1) n (s.rotSpans env c y (rot (y % 8).toNat) ps)

/-- A record of `M8_SPANS_PAT`. -/
def rotRec (rot : ℕ → ℕ) (r : SpanRec) (s : Hw) : Hw :=
  let y := r.rows c
  if y.2 ≤ y.1 ∨ r.pairs = [] then s else s.rotRows env c rot r.pairs y.1 (y.2 - y.1).toNat

/-- `M8_SPANS_PAT`. -/
def m8SpansPat (rot : ℕ → ℕ) (recs : List SpanRec) (s : Hw) : Hw :=
  recs.foldl (fun s r => s.rotRec env c rot r) s.mmForget

/-- A record's pairs in `m8_hw_scan_spans`'s own loop. -/
def pattSpans (pat : Pat) (y0 y1 : ℤ) : List (ℤ × ℤ) → Hw → Hw
  | [], s => s
  | p :: ps, s =>
    let x := cutPair c p
    pattSpans pat y0 y1 ps (
      if x.2 ≤ x.1 then s
      else if y1 - y0 ≠ 1 then s.m8HwPatternSpan env x.1 y0 (x.2 - x.1) (y1 - y0) pat
      else
        let s := (((s.drainBelow env 6).scanRow y0).outpw M8_CUR_X x.1).scanPatt (pat.row y0)
        ((s.outpw M8_PATT_INDEX (x.1 % 8)).outMM M8_SCAN_TO_X x.2).spend 3)

/-- A record of `m8_hw_scan_spans`'s own loop. -/
def pattRec (pat : Pat) (r : SpanRec) (s : Hw) : Hw :=
  let y := r.rows c
  if y.2 ≤ y.1 then s else s.pattSpans env c pat y.1 y.2 r.pairs

/-- `m8_hw_scan_spans`, solid with no pattern. -/
def m8HwScanSpans (recs : List SpanRec) (pat : Option Pat) (s : Hw) : Hw :=
  if s.hwOff = true then s
  else
    match pat with
    | none => if recs = [] then s else s.m8SpansSolid env c recs
    | some pat =>
      match m8PatRotations pat with
      | some rot =>
        let v : ℤ := (pat 0).toNat
        let s := if v ≠ s.scanByte then ((s.drainBelow env 2).outs (pattData v)).spend 2 else s
        { s.m8SpansPat env c rot recs with scanByte := v }
      | none => recs.foldl (fun s r => s.pattRec env c pat r) s

/-- The solid spans of one call : the short set-up or the full one, then the list. -/
def fillSpans (color mix : ℕ) (recs : List SpanRec) (s : Hw) : Hw :=
  match s.m8HwFillBeginFast env color mix with
  | (true, s) => s.m8HwScanSpans env c recs none
  | (false, s) => (s.m8HwFillBegin env color mix).m8HwScanSpans env c recs none

/-- The solid spans of a call that takes the full set-up. -/
def fillSpansFull (color mix : ℕ) (recs : List SpanRec) (s : Hw) : Hw :=
  (s.m8HwFillBegin env color mix).m8HwScanSpans env c recs none

/-- The pattern spans of one call. -/
def patternSpans (fg bg fgFn bgFn : ℕ) (pat : Pat) (recs : List SpanRec) (s : Hw) : Hw :=
  (s.m8HwPatternBegin env fg bg fgFn bgFn).m8HwScanSpans env c recs (some pat)

end Hw

end Inboard
