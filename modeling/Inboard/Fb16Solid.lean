import Inboard.Fb16Conv
import Inboard.Pixels
import Inboard.Strip

/-!
# A rectangle of one colour

`m8_fb16_solid`, which dithers a rectangle to one colour without a pixel of it in RAM : a
4 by 4 block crosses the bus and engine copies double it across and then down, each distance
a multiple of 4, or it is a fill if the block is one index. Then the fingerprints :
`m8_fb16_known` gives the pieces it covers whole the colour's, which `M8_FB16_ROWDIFF` would
find in a piece of that colour, and forgets the others it touches.

Both read the dither by phase : a pixel is the block's at its distance from the corner
modulo 4 (`dither_eq_block`), as the block is narrower or lower than 4 only when the rectangle
is.
-/

set_option linter.unusedSectionVars false

namespace Inboard

/-! ## Fingerprints -/

/-- `M8_FB16_SEG_W`. -/
def M8_FB16_SEG_W : ℕ := 32

/-- `m8_fb16_nseg` : `M8_FB16_MAXW / M8_FB16_SEG_W`. -/
def M8_FB16_NSEG : ℕ := 800 / M8_FB16_SEG_W

/-- A 16 bpp mode, `m8_scr_x` by `m8_scr_y`. -/
structure Fb16Mode where
  scrX : ℕ
  scrY : ℕ
  ok : scrX = 640 ∧ scrY = 480 ∨ scrX = 800 ∧ scrY = 600

theorem Fb16Mode.fits (m : Fb16Mode) : m.scrX ≤ 800 := by
  have h := m.ok
  omega

/-- `m8_fb16_hash`, if there was memory for it. -/
abbrev Fb16Hash := Option (ℕ → UInt32)

/-- The entry of piece `p.1` of row `p.2`. -/
def pieceEntry (p : Pixel) : ℕ := (p.2 * M8_FB16_NSEG + p.1).toNat

/-- The pixels of a piece. -/
def pieceRect (s y : ℕ) : Rect := Rect.at (s * M8_FB16_SEG_W : ℕ) y M8_FB16_SEG_W 1

/-- `m8_fb16_forget`. -/
def m8Fb16Forget (m : Fb16Mode) (l t r b : ℤ) (hash : ℕ → UInt32) : ℕ → UInt32 :=
  let l := max l 0
  let t := max t 0
  let r := min r m.scrX
  let b := min b m.scrY
  if r ≤ l ∨ b ≤ t then hash
  else
    let s0 := l / M8_FB16_SEG_W
    let s1 := (r - 1) / M8_FB16_SEG_W
    Rect.store pieceEntry (fun _ => 0) ⟨s0, t, s1 + 1, b⟩ hash

/-- `m8_fb16_hash_colour`. -/
def m8Fb16HashColour (c : UInt16) : UInt32 :=
  let d := c.toUInt32 ||| c.toUInt32 <<< 16
  let h := (List.range (M8_FB16_SEG_W / 2)).foldl (fun h _ =>
    let h := h + d
    let h := h + h <<< 10
    h ^^^ h >>> 6) 0x811C9DC5
  if h ≠ 0 then h else 1

/-- `m8_fb16_known` of a rectangle on the screen. -/
def m8Fb16Known (m : Fb16Mode) (l t r b : ℤ) (c : UInt16) (hash : Fb16Hash) : Fb16Hash :=
  hash.map fun hash =>
    let f0 := (l + M8_FB16_SEG_W - 1) / M8_FB16_SEG_W
    let f1 := r / M8_FB16_SEG_W
    if f1 ≤ f0 then m8Fb16Forget m l t r b hash
    else
      let hash := m8Fb16Forget m l t (f0 * M8_FB16_SEG_W) b hash
      let hash := m8Fb16Forget m (f1 * M8_FB16_SEG_W) t r b hash
      Rect.store pieceEntry (fun _ => m8Fb16HashColour c) ⟨f0, t, f1, b⟩ hash

/-! ### `M8_FB16_ROWDIFF` -/

/-- A dword's part of a piece's hash, in EAX and ECX. -/
def rdDword (fb : Mem Unit) (eax : UInt32) (esi : ℕ) : UInt32 :=
  let eax := eax + UInt32.ofNat (fb.dword () esi)
  let ecx := eax
  let ecx := ecx <<< 10
  let eax := eax + ecx
  let ecx := eax
  let ecx := ecx >>> 6
  eax ^^^ ecx

/-- `rd_piece` to `rd_nz` : EAX, from 16 dwords at ESI. -/
def rdHash (fb : Mem Unit) (esi : ℕ) : UInt32 :=
  let eax := ([0, 4, 8, 12, 16, 20, 24, 28, 32, 36, 40, 44, 48, 52, 56, 60].map (esi + ·)).foldl
    (rdDword fb) 0x811C9DC5
  if eax = 0 then eax + 1 else eax

/-- The registers at `rd_piece`, the fields it sets and the entries at ES, DI in entries. -/
structure RowDiff where
  esi : ℕ
  di : ℕ
  dx : ℕ
  first : ℤ
  last : ℤ
  table : ℕ → UInt32

/-- One piece. -/
def rdPiece (fb : Mem Unit) (s : RowDiff) : RowDiff :=
  let eax := rdHash fb s.esi
  let s :=
    if eax = s.table s.di then s
    else { s with
      table := Function.update s.table s.di eax
      first := if s.first ≠ -1 then s.first else s.dx
      last := s.dx }
  { s with esi := s.esi + 64, di := s.di + 1, dx := s.dx + 1 }

/-- A round; it leaves at the count. -/
def rdStep (fb : Mem Unit) (count : ℕ) (s : RowDiff) : RowDiff ⊕ RowDiff :=
  let t := rdPiece fb s
  if t.dx < count then .inl t else .inr t

/-- A piece leaves its hash in its entry. -/
theorem rdPiece_spec (fb : Mem Unit) (s : RowDiff) :
    (rdPiece fb s).esi = s.esi + 64 ∧ (rdPiece fb s).di = s.di + 1 ∧
      (rdPiece fb s).dx = s.dx + 1 ∧
      (rdPiece fb s).table = Function.update s.table s.di (rdHash fb s.esi) := by
  unfold rdPiece
  dsimp only
  by_cases heq : rdHash fb s.esi = s.table s.di
  · rw [if_pos heq, heq, Function.update_eq_self]
    exact ⟨rfl, rfl, rfl, rfl⟩
  · rw [if_neg heq]
    exact ⟨rfl, rfl, rfl, rfl⟩

theorem rdStep_cases {fb : Mem Unit} {count : ℕ} {s t : RowDiff} :
    (rdStep fb count s = .inl t → t = rdPiece fb s ∧ t.dx < count) ∧
      (rdStep fb count s = .inr t → t = rdPiece fb s ∧ count ≤ t.dx) := by
  unfold rdStep
  dsimp only
  split_ifs with h
  · refine ⟨fun heq => ?_, fun heq => by simp at heq⟩
    obtain rfl := Sum.inl.inj heq
    exact ⟨rfl, h⟩
  · refine ⟨fun heq => by simp at heq, fun heq => ?_⟩
    obtain rfl := Sum.inr.inj heq
    exact ⟨rfl, Nat.le_of_not_lt h⟩

/-- `rd_piece`. -/
def rdLoop (fb : Mem Unit) (count : ℕ) : Loop RowDiff RowDiff where
  step := rdStep fb count
  measure s := count - s.dx
  decreases s t h := by
    obtain ⟨rfl, hlt⟩ := rdStep_cases.1 h
    have hdx := (rdPiece_spec fb s).2.2.1
    omega

/-- `M8_FB16_ROWDIFF` : `count` pieces from `fboff`, their entries from `htoff`. -/
def m8Fb16RowDiff (fb : Mem Unit) (fboff htoff count : ℕ) (last : ℤ) (table : ℕ → UInt32) :
    RowDiff :=
  (rdLoop fb count).run ⟨fboff, htoff, 0, -1, last, table⟩

/-- A piece whose entry is not its hash. -/
def PieceChanged (fb : Mem Unit) (fboff htoff : ℕ) (table : ℕ → UInt32) (i : ℕ) : Prop :=
  table (htoff + i) ≠ rdHash fb (fboff + 64 * i)

/-- The fields name the first and the last of the changed pieces before `n`. -/
def SpanOf (fb : Mem Unit) (fboff htoff : ℕ) (table : ℕ → UInt32) (n : ℕ) (first last : ℤ) : Prop :=
  (first = -1 ∧ ∀ i < n, ¬ PieceChanged fb fboff htoff table i) ∨
    ∃ f g : ℕ, first = f ∧ last = g ∧ g < n ∧ PieceChanged fb fboff htoff table f ∧
      PieceChanged fb fboff htoff table g ∧
      ∀ i < n, PieceChanged fb fboff htoff table i → f ≤ i ∧ i ≤ g

/-- The pieces before `dx` are done. -/
structure RdInv (fb : Mem Unit) (fboff htoff : ℕ) (table : ℕ → UInt32) (s : RowDiff) : Prop where
  esi : s.esi = fboff + 64 * s.dx
  di : s.di = htoff + s.dx
  done : ∀ i < s.dx, s.table (htoff + i) = rdHash fb (fboff + 64 * i)
  rest : ∀ e, e < htoff ∨ htoff + s.dx ≤ e → s.table e = table e
  span : SpanOf fb fboff htoff table s.dx s.first s.last

section RowDiffSpec

variable {fb : Mem Unit} {fboff htoff : ℕ} {table : ℕ → UInt32} {s : RowDiff}

theorem SpanOf.same {n : ℕ} {first last : ℤ} (h : SpanOf fb fboff htoff table n first last)
    (hn : ¬ PieceChanged fb fboff htoff table n) :
    SpanOf fb fboff htoff table (n + 1) first last := by
  rcases h with ⟨hfirst, hnone⟩ | ⟨f, g, hf, hg, hgn, hcf, hcg, hall⟩
  · refine .inl ⟨hfirst, fun i hi => ?_⟩
    rcases Nat.eq_or_lt_of_le (Nat.le_of_lt_succ hi) with rfl | hlt
    · exact hn
    · exact hnone i hlt
  · refine .inr ⟨f, g, hf, hg, Nat.lt_succ_of_lt hgn, hcf, hcg, fun i hi hci => ?_⟩
    rcases Nat.eq_or_lt_of_le (Nat.le_of_lt_succ hi) with rfl | hlt
    · exact absurd hci hn
    · exact hall i hlt hci

theorem SpanOf.changed {n : ℕ} {first last : ℤ} (h : SpanOf fb fboff htoff table n first last)
    (hn : PieceChanged fb fboff htoff table n) :
    SpanOf fb fboff htoff table (n + 1) (if first ≠ -1 then first else n) n := by
  rcases h with ⟨rfl, hnone⟩ | ⟨f, g, rfl, -, hgn, hcf, hcg, hall⟩
  · refine .inr ⟨n, n, if_neg (by simp), rfl, Nat.lt_succ_self n, hn, hn, fun i hi hci => ?_⟩
    rcases Nat.eq_or_lt_of_le (Nat.le_of_lt_succ hi) with rfl | hlt
    · exact ⟨Nat.le_refl i, Nat.le_refl i⟩
    · exact absurd hci (hnone i hlt)
  · refine .inr ⟨f, n, if_pos (by omega), rfl, Nat.lt_succ_self n, hcf, hn, fun i hi hci => ?_⟩
    rcases Nat.eq_or_lt_of_le (Nat.le_of_lt_succ hi) with rfl | hlt
    · exact ⟨(hall g hgn hcg).1.trans (Nat.le_of_lt hgn), Nat.le_refl i⟩
    · exact ⟨(hall i hlt hci).1, Nat.le_of_lt hlt⟩

theorem RdInv.piece (h : RdInv fb fboff htoff table s) :
    RdInv fb fboff htoff table (rdPiece fb s) := by
  obtain ⟨hesi', hdi', hdx', htable'⟩ := rdPiece_spec fb s
  have hentry : s.table s.di = table (htoff + s.dx) := by
    rw [h.rest s.di (.inr (Nat.le_of_eq h.di.symm)), h.di]
  refine ⟨?_, ?_, fun i hi => ?_, fun e he => ?_, ?_⟩
  · rw [hesi', hdx', h.esi]
    omega
  · rw [hdi', hdx', h.di]
    omega
  · rw [htable']
    rcases Nat.eq_or_lt_of_le (Nat.le_of_lt_succ (hdx' ▸ hi)) with rfl | hlt
    · rw [h.di, Function.update_self, h.esi]
    · rw [Function.update_of_ne (by rw [h.di]; omega)]
      exact h.done i hlt
  · rw [hdx'] at he
    rw [htable', Function.update_of_ne (by rw [h.di]; omega)]
    exact h.rest e (by omega)
  · rw [hdx']
    have hspan := h.span
    unfold rdPiece
    dsimp only
    by_cases heq : rdHash fb s.esi = s.table s.di
    · rw [if_pos heq]
      refine hspan.same fun hc => hc ?_
      rw [← hentry, ← heq, h.esi]
    · rw [if_neg heq]
      refine hspan.changed fun hsame => heq ?_
      rw [hentry, hsame, h.esi]

end RowDiffSpec

/-- It goes over the pieces, and leaves at the count. -/
theorem m8Fb16RowDiff_inv (fb : Mem Unit) (fboff htoff : ℕ) {count : ℕ} (hcount : 0 < count)
    (last : ℤ) (table : ℕ → UInt32) :
    RdInv fb fboff htoff table (m8Fb16RowDiff fb fboff htoff count last table) ∧
      (m8Fb16RowDiff fb fboff htoff count last table).dx = count := by
  refine (rdLoop fb count).run_induct (I := fun s => RdInv fb fboff htoff table s ∧ s.dx < count)
    (P := fun s => RdInv fb fboff htoff table s ∧ s.dx = count)
    (fun s t hs hstep => ?_) (fun s t hs hstep => ?_) _
    ⟨⟨rfl, rfl, fun i hi => ?_, fun _ _ => rfl, .inl ⟨rfl, fun i hi => ?_⟩⟩, hcount⟩
  · obtain ⟨rfl, hlt⟩ := rdStep_cases.1 hstep
    exact ⟨hs.1.piece, hlt⟩
  · obtain ⟨rfl, hge⟩ := rdStep_cases.2 hstep
    have hdx := (rdPiece_spec fb s).2.2.1
    exact ⟨hs.1.piece, by omega⟩
  all_goals exact absurd hi (Nat.not_lt_zero i)

/-- It leaves each piece's hash in its entry. -/
theorem m8Fb16RowDiff_table (fb : Mem Unit) (fboff htoff : ℕ) {count : ℕ} (last : ℤ)
    (table : ℕ → UInt32) {i : ℕ} (hi : i < count) :
    (m8Fb16RowDiff fb fboff htoff count last table).table (htoff + i) =
      rdHash fb (fboff + 64 * i) := by
  obtain ⟨hinv, hdx⟩ := m8Fb16RowDiff_inv fb fboff htoff (Nat.zero_lt_of_lt hi) last table
  exact hinv.done i (by omega)

/-! ### A piece of one colour -/

/-- A piece's 32 pixels are `c`, low byte first. -/
def HoldsColour (fb : Mem Unit) (a : ℕ) (c : UInt16) : Prop :=
  ∀ i < M8_FB16_SEG_W, fb () (a + 2 * i) = UInt8.ofNat c.toNat ∧
    fb () (a + 2 * i + 1) = UInt8.ofNat (c.toNat / 256)

/-- Two pixels of a colour, as one dword. -/
theorem dword_of_colour {fb : Mem Unit} {a i : ℕ} {c : UInt16} (h : HoldsColour fb a c)
    (hi : i < 16) :
    UInt32.ofNat (fb.dword () (a + 4 * i)) = c.toUInt32 ||| c.toUInt32 <<< 16 := by
  have hseg : M8_FB16_SEG_W = 32 := rfl
  obtain ⟨h0, h1⟩ := h (2 * i) (by omega)
  obtain ⟨h2, h3⟩ := h (2 * i + 1) (by omega)
  have hc := c.toNat_lt
  have hdword : fb.dword () (a + 4 * i) = c.toNat <<< 16 + c.toNat := by
    have ha1 : a + 4 * i + 1 = a + 2 * (2 * i) + 1 := by omega
    have ha2 : a + 4 * i + 2 = a + 2 * (2 * i + 1) := by omega
    have ha3 : a + 4 * i + 3 = a + 2 * (2 * i + 1) + 1 := by omega
    have ha0 : a + 4 * i = a + 2 * (2 * i) := by omega
    rw [Mem.dword, ha1, ha2, ha3, ha0, h0, h1, h2, h3]
    simp only [UInt8.toNat_ofNat', Nat.shiftLeft_eq]
    omega
  rw [hdword, Nat.shiftLeft_add_eq_or_of_lt hc]
  refine UInt32.toNat_inj.1 ?_
  rw [UInt32.toNat_or, UInt32.toNat_shiftLeft, UInt16.toNat_toUInt32, Nat.or_comm,
    show UInt32.toNat 16 % 32 = 16 from rfl]
  have hshift : c.toNat <<< 16 < 2 ^ 32 := by
    rw [Nat.shiftLeft_eq]
    omega
  have hor : c.toNat <<< 16 ||| c.toNat < 2 ^ 32 := Nat.or_lt_two_pow hshift (by omega)
  rw [UInt32.toNat_ofNat', Nat.mod_eq_of_lt (by rwa [Nat.or_comm]), Nat.mod_eq_of_lt hshift]

/-- The two hashes of a colour are the same. -/
theorem rdHash_eq_m8Fb16HashColour {fb : Mem Unit} {a : ℕ} {c : UInt16}
    (h : HoldsColour fb a c) : rdHash fb a = m8Fb16HashColour c := by
  have hstep : ∀ i < 16, ∀ eax, rdDword fb eax (a + 4 * i) =
      let h := eax + (c.toUInt32 ||| c.toUInt32 <<< 16)
      let h := h + h <<< 10
      h ^^^ h >>> 6 := fun i hi eax => by
    rw [rdDword, dword_of_colour h hi]
  have hlist : [0, 4, 8, 12, 16, 20, 24, 28, 32, 36, 40, 44, 48, 52, 56, 60].map (a + ·) =
      (List.range (M8_FB16_SEG_W / 2)).map fun i => a + 4 * i := rfl
  unfold rdHash m8Fb16HashColour
  have hfold : (List.range (M8_FB16_SEG_W / 2)).foldl (fun eax i => rdDword fb eax (a + 4 * i))
      0x811C9DC5 = _ := List.foldl_ext _ _ _ fun eax i hi => hstep i (List.mem_range.1 hi) eax
  rw [hlist, List.foldl_map, ite_not, hfold]
  dsimp only
  split_ifs with h0
  · rw [h0]
    rfl
  · rfl

/-! ### What is known after a fill -/

variable {m : Fb16Mode} {r : Rect} {hash : ℕ → UInt32} {s y : ℕ}

theorem pieceEntry_inj {p q : Pixel} (hp : 0 ≤ p.1 ∧ p.1 < M8_FB16_NSEG ∧ 0 ≤ p.2)
    (hq : 0 ≤ q.1 ∧ q.1 < M8_FB16_NSEG ∧ 0 ≤ q.2) (h : pieceEntry p = pieceEntry q) : p = q := by
  have hnseg : M8_FB16_NSEG = 25 := rfl
  unfold pieceEntry at h
  rw [hnseg] at h hp hq
  refine Prod.ext ?_ ?_ <;> omega

/-- A store over pieces of the screen, read at a piece. -/
theorem store_pieceEntry {v : UInt32} {d : Rect} (hl : 0 ≤ d.left) (ht : 0 ≤ d.top)
    (hr : d.right ≤ M8_FB16_NSEG) (hs : s < M8_FB16_NSEG) :
    Rect.store pieceEntry (fun _ => v) d hash (pieceEntry (s, y)) =
      if ((s, y) : Pixel) ∈ d then v else hash (pieceEntry (s, y)) := by
  have hin : ∀ p ∈ d, 0 ≤ p.1 ∧ p.1 < M8_FB16_NSEG ∧ 0 ≤ p.2 := fun p hp => by
    rw [Rect.mem_iff] at hp
    omega
  split_ifs with h
  · exact Rect.store_of_mem (fun p hp q hq => pieceEntry_inj (hin p hp) (hin q hq)) h
  · refine Rect.store_of_ne fun p hp heq => h ?_
    have hpiece : p = ((s, y) : Pixel) :=
      pieceEntry_inj (hin p hp) ⟨by simp, by simpa using hs, by simp⟩ heq
    rwa [← hpiece]

/-- What is forgotten : the pieces with a pixel in the rectangle. -/
theorem m8Fb16Forget_entry {l t r b : ℤ} (hl : 0 ≤ l) (ht : 0 ≤ t) (hr : r ≤ m.scrX)
    (hb : b ≤ m.scrY) (hs : s < M8_FB16_NSEG) :
    m8Fb16Forget m l t r b hash (pieceEntry (s, y)) =
      if l < r ∧ l < (s * 32 + 32 : ℕ) ∧ (s * 32 : ℕ) < r ∧ t ≤ y ∧ y < b then 0
      else hash (pieceEntry (s, y)) := by
  have hseg : M8_FB16_SEG_W = 32 := rfl
  have hnseg : M8_FB16_NSEG = 25 := rfl
  have hfits := m.fits
  unfold m8Fb16Forget
  dsimp only
  rw [Int.max_eq_left hl, Int.max_eq_left ht, Int.min_eq_left hr, Int.min_eq_left hb, hseg]
  by_cases hempty : r ≤ l ∨ b ≤ t
  · rw [if_pos hempty, if_neg (by omega)]
  · rw [if_neg hempty, store_pieceEntry (by dsimp only; omega) ht (by dsimp only; omega) hs]
    refine if_congr ?_ rfl rfl
    rw [Rect.mem_iff]
    dsimp only
    omega

/-- Of a rectangle on the screen, a piece inside it takes the colour's fingerprint, one it
touches is forgotten, and the others are kept. -/
theorem m8Fb16Known_entry (hash : ℕ → UInt32) {l t r b : ℤ} {c : UInt16} (hl : 0 ≤ l) (hlr : l < r)
    (ht : 0 ≤ t)
    (hr : r ≤ m.scrX) (hb : b ≤ m.scrY) (hs : s < M8_FB16_NSEG) :
    (m8Fb16Known m l t r b c (some hash)).map (· (pieceEntry (s, y))) = some
      (if l ≤ (s * 32 : ℕ) ∧ (s * 32 + 32 : ℕ) ≤ r ∧ t ≤ y ∧ y < b then m8Fb16HashColour c
      else if l < (s * 32 + 32 : ℕ) ∧ (s * 32 : ℕ) < r ∧ t ≤ y ∧ y < b then 0
      else hash (pieceEntry (s, y))) := by
  have hseg : M8_FB16_SEG_W = 32 := rfl
  have hnseg : M8_FB16_NSEG = 25 := rfl
  have hfits := m.fits
  unfold m8Fb16Known
  rw [Option.map_some, Option.map_some, hseg]
  refine congrArg some ?_
  by_cases hnone : r / (32 : ℕ) ≤ (l + (32 : ℕ) - 1) / (32 : ℕ)
  · have hin : ¬ (l ≤ (s * 32 : ℕ) ∧ (s * 32 + 32 : ℕ) ≤ r ∧ t ≤ y ∧ y < b) := by omega
    rw [if_pos hnone, m8Fb16Forget_entry hl ht hr hb hs, if_neg hin]
    refine if_congr ?_ rfl rfl
    omega
  · rw [if_neg hnone, store_pieceEntry (by dsimp only; omega) ht (by dsimp only; omega) hs]
    by_cases hin : l ≤ (s * 32 : ℕ) ∧ (s * 32 + 32 : ℕ) ≤ r ∧ t ≤ y ∧ y < b
    · rw [if_pos hin, if_pos]
      rw [Rect.mem_iff]
      dsimp only
      omega
    · rw [if_neg hin, if_neg, m8Fb16Forget_entry (by omega) ht hr hb hs,
        m8Fb16Forget_entry hl ht (by omega) hb hs]
      · split_ifs <;> first | rfl | omega
      · rw [Rect.mem_iff]
        dsimp only
        omega

/-! ## The fill -/

/-- What a fill is given and leaves : the pointers, `m8_fb16_src`, the fingerprints. -/
structure Fb16State (T : Fb16Tables) where
  cv : Fb16CvCache T
  src : ℕ → UInt16
  hash : Fb16Hash

/-- The rows of a block, four bytes apart. -/
def solidBlock {T : Fb16Tables} (cv : Fb16CvCache T) (src : ℕ → UInt16) (t l bw : ℕ)
    (blk : Mem ConvSeg) (bh : ℕ) : Fb16CvCache T × Mem ConvSeg :=
  (List.range bh).foldl (fun s k => m8Fb16Conv s.1 src (t + k) l bw (k * 4) s.2) (cv, blk)

/-- The block to the card. Host words carry two pixels : an odd width goes a pixel at a
time. -/
def blockCalls (l t bw bh : ℕ) (blk : ℕ → UInt8) : List CardOp :=
  if bw % 2 = 1 then
    (List.range (bw * bh)).map fun k =>
      .fill ((l : ℤ) + (k % bw : ℕ)) ((t : ℤ) + (k / bw : ℕ)) 1 1 (blk (k / bw * 4 + k % bw))
  else [.write l t bw bh blk 4]

/-- `m8_fb16_solid` of a rectangle on the screen, with what `blk` holds before : its calls, and
what it leaves. -/
def m8Fb16Solid {T : Fb16Tables} (m : Fb16Mode) (l t r b : ℕ) (c : UInt16) (blk : Mem ConvSeg)
    (s : Fb16State T) : List CardOp × Fb16State T :=
  let w := r - l
  let h := b - t
  let bw := if w < 4 then w else 4
  let bh := if h < 4 then h else 4
  let src := fun k => if k < 4 then c else s.src k
  let conv := solidBlock s.cv src t l bw blk bh
  let blk := conv.2 .dst
  let k := countWhile (fun k => blk (k / bw * 4 + k % bw) == blk 0) (bw * bh) 1
  let ops :=
    if k = bw * bh then [.fill l t w h (blk 0)]
    else
      blockCalls l t bw bh blk ++ (doubling w bw).map (fun c => .copy l t (l + c.1) t c.2 bh) ++
      (doubling h bh).map (fun c => .copy l t l (t + c.1) w c.2)
  (ops, ⟨conv.1, src, m8Fb16Known m l t r b c s.hash⟩)

/-- The dither of a colour. -/
def dither (T : Fb16Tables) (c : UInt16) : Card := fun p => T.ref p.2.toNat p.1.toNat c

/-- The dither is by column and row modulo 4. -/
theorem Fb16Tables.ref_congr (T : Fb16Tables) {y y' x x' : ℕ} (c : UInt16) (hy : y % 4 = y' % 4)
    (hx : x % 4 = x' % 4) : T.ref y x c = T.ref y' x' c := by
  unfold ref
  rw [hy, hx]

theorem dither_congr (T : Fb16Tables) (c : UInt16) {p q : Pixel} (hp : 0 ≤ p.1 ∧ 0 ≤ p.2)
    (hq : 0 ≤ q.1 ∧ 0 ≤ q.2) (hx : 4 ∣ p.1 - q.1) (hy : 4 ∣ p.2 - q.2) :
    dither T c p = dither T c q :=
  T.ref_congr c (by omega) (by omega)

/-- The rows converted so far hold the dither. -/
theorem solidBlock_apply {T : Fb16Tables} (hT : T.Fits) (cv : Fb16CvCache T)
    (src : ℕ → UInt16) (t l : ℕ) {bw : ℕ} (blk : Mem ConvSeg) (hbw : 0 < bw) (hbw4 : bw ≤ 4) :
    ∀ (n : ℕ) {j i : ℕ}, j < n → i < bw →
      (solidBlock cv src t l bw blk n).2 .dst (j * 4 + i) = T.ref (t + j) (l + i) (src i)
  | n + 1, j, i, hj, hi => by
    have hrow : (solidBlock cv src t l bw blk (n + 1)).2 .dst =
        ((solidBlock cv src t l bw blk n).2.fill .dst (n * 4) bw fun i =>
          T.ref (t + n) (l + i) (src i)) .dst := by
      unfold solidBlock
      rw [List.range_succ, List.foldl_append, List.foldl_cons, List.foldl_nil]
      exact m8Fb16Conv_fill hT _ src (t + n) l hbw (n * 4) _
    rw [hrow]
    rcases Nat.eq_or_lt_of_le (Nat.le_of_lt_succ hj) with rfl | hlt
    · exact Mem.fill_apply_add _ _ hi
    · rw [Mem.fill_apply_of_lt _ _ _ (by omega)]
      exact solidBlock_apply hT cv src t l blk hbw hbw4 n hlt hi

section Spec

variable {T : Fb16Tables} {c : UInt16} {l t bw bh w h : ℕ} {blk : ℕ → UInt8} {c₀ : Card}

/-- The block holds the dither of its pixels. -/
def IsBlock (T : Fb16Tables) (c : UInt16) (l t bw bh : ℕ) (blk : ℕ → UInt8) : Prop :=
  ∀ j < bh, ∀ i < bw, blk (j * 4 + i) = T.ref (t + j) (l + i) c

/-- A pixel's index is the block's at its distance modulo 4. -/
theorem dither_eq_block (hblk : IsBlock T c l t bw bh blk) (hw : bw = w ∨ bw = 4)
    (hh : bh = h ∨ bh = 4) {p : Pixel} (hp : p ∈ Rect.at l t w h) (hbw : bw ≤ 4) (hbh : bh ≤ 4) :
    ∃ j < bh, ∃ i < bw, dither T c p = blk (j * 4 + i) := by
  rw [Rect.mem_at] at hp
  refine ⟨(p.2 - t).toNat % 4, by omega, (p.1 - l).toNat % 4, by omega, ?_⟩
  rw [hblk _ (by omega) _ (by omega)]
  exact T.ref_congr c (by omega) (by omega)

/-- A block of one index dithers the rectangle to it. -/
theorem dither_eq_of_flat (hblk : IsBlock T c l t bw bh blk) (hw : bw = w ∨ bw = 4)
    (hh : bh = h ∨ bh = 4) (hbw : bw ≤ 4) (hbh : bh ≤ 4)
    (hflat : countWhile (fun k => blk (k / bw * 4 + k % bw) == blk 0) (bw * bh) 1 = bw * bh)
    {p : Pixel} (hp : p ∈ Rect.at l t w h) : dither T c p = blk 0 := by
  obtain ⟨j, hj, i, hi, heq⟩ := dither_eq_block hblk hw hh hp hbw hbh
  have hdiv : (j * bw + i) / bw = j := by
    rw [Nat.mul_comm, Nat.mul_add_div (by omega), Nat.div_eq_of_lt hi, Nat.add_zero]
  have hmod : (j * bw + i) % bw = i := by
    rw [Nat.mul_comm, Nat.mul_add_mod, Nat.mod_eq_of_lt hi]
  have hlt : j * bw + i < bw * bh := by
    have hmul : (j + 1) * bw ≤ bh * bw := Nat.mul_le_mul_right bw hj
    rw [Nat.succ_mul, Nat.mul_comm bh] at hmul
    omega
  rcases Nat.eq_zero_or_pos (j * bw + i) with h0 | hpos
  · obtain ⟨hj0, rfl⟩ : j * bw = 0 ∧ i = 0 := by omega
    obtain rfl : j = 0 := (Nat.mul_eq_zero.1 hj0).resolve_right (by omega)
    exact heq
  · have htrue := countWhile_true (fun k => blk (k / bw * 4 + k % bw) == blk 0) (bw * bh) 1
      (j * bw + i) hpos (by omega)
    rw [hdiv, hmod] at htrue
    rw [heq]
    exact eq_of_beq htrue

/-- The block is on the card. -/
theorem blockCalls_painted (hblk : IsBlock T c l t bw bh blk) (hbw : 0 < bw) (c₀ : Card) :
    Painted (· ∈ Rect.at l t bw bh) (dither T c) c₀ (applyAll (blockCalls l t bw bh blk) c₀) := by
  let at' : ℕ → Pixel := fun k => ((l : ℤ) + (k % bw : ℕ), (t : ℤ) + (k / bw : ℕ))
  unfold blockCalls
  split_ifs with hodd
  · have hpart : ∀ n ≤ bw * bh, Painted (fun p => ∃ k < n, p = at' k) (dither T c) c₀
        (applyAll ((List.range n).map fun k => .fill ((l : ℤ) + (k % bw : ℕ))
          ((t : ℤ) + (k / bw : ℕ)) 1 1 (blk (k / bw * 4 + k % bw))) c₀) := fun n hn => by
      induction n with
      | zero =>
        refine (Painted.start _ _).congr fun p => ⟨fun hp => ?_, False.elim⟩
        obtain ⟨k, hk, -⟩ := hp
        exact absurd hk (Nat.not_lt_zero k)
      | succ n ih =>
        rw [List.range_succ, List.map_append, applyAll_append]
        refine ((ih (by omega)).fill _ fun p hp => ?_).congr fun p => ?_
        · have hrow : n / bw < bh := Nat.div_lt_of_lt_mul hn
          rw [hblk _ hrow _ (Nat.mod_lt n hbw)]
          rw [Rect.mem_at] at hp
          generalize n / bw = j at hp ⊢
          exact T.ref_congr c (by omega) (by omega)
        · have hpixel : p ∈ Rect.at ((l : ℤ) + (n % bw : ℕ)) ((t : ℤ) + (n / bw : ℕ)) 1 1 ↔
              p = at' n := by
            rw [Rect.mem_at, Prod.ext_iff]
            dsimp only [at']
            omega
          rw [hpixel]
          refine ⟨fun ⟨k, hk, hpk⟩ => ?_, fun hor => ?_⟩
          · rcases Nat.eq_or_lt_of_le (Nat.le_of_lt_succ hk) with rfl | hlt
            · exact .inr hpk
            · exact .inl ⟨k, hlt, hpk⟩
          · rcases hor with ⟨k, hk, hpk⟩ | hpn
            · exact ⟨k, Nat.lt_succ_of_lt hk, hpk⟩
            · exact ⟨n, Nat.lt_succ_self n, hpn⟩
    refine (hpart _ (Nat.le_refl _)).congr fun p => ⟨fun hp => ?_, fun ⟨k, hk, hpk⟩ => ?_⟩
    · rw [Rect.mem_at] at hp
      refine ⟨(p.2 - t).toNat * bw + (p.1 - l).toNat, ?_, ?_⟩
      · have hmul : ((p.2 - t).toNat + 1) * bw ≤ bh * bw :=
          Nat.mul_le_mul_right bw (show (p.2 - t).toNat + 1 ≤ bh by omega)
        rw [Nat.succ_mul, Nat.mul_comm bh] at hmul
        omega
      · have hcol : (p.1 - l).toNat < bw := by omega
        rw [Prod.ext_iff]
        dsimp only [at']
        rw [Nat.mul_comm, Nat.mul_add_mod, Nat.mul_add_div hbw, Nat.mod_eq_of_lt hcol,
          Nat.div_eq_of_lt hcol]
        omega
    · have hrow : k / bw < bh := Nat.div_lt_of_lt_mul hk
      have hcol := Nat.mod_lt k hbw
      rw [hpk, Rect.mem_at]
      dsimp only [at']
      generalize k / bw = j at hrow ⊢
      omega
  · refine ((Painted.start _ _).write blk 4 (by omega) fun p hp => ?_).congr fun p => ?_
    · rw [Rect.mem_at] at hp
      rw [hblk _ (by omega) _ (by omega)]
      exact T.ref_congr c (by omega) (by omega)
    · rw [false_or]

/-- Copies across of what is there, a whole number of blocks, put the dither across. -/
theorem copyAcross_painted (hw : bw = w ∨ bw = 4) (hle : bw ≤ w) (hbw : 0 < bw) {c₁ : Card}
    (hp : Painted (· ∈ Rect.at l t bw bh) (dither T c) c₀ c₁) :
    Painted (· ∈ Rect.at l t w bh) (dither T c) c₀
      (applyAll ((doubling w bw).map fun c => .copy l t (l + c.1) t c.2 bh) c₁) := by
  rw [applyAll, List.foldl_map]
  refine doubling_induct (P := fun (d : ℕ) c₁ => Painted (· ∈ Rect.at l t d bh) (dither T c) c₀ c₁)
    (fun c₁ n => (CardOp.copy l t (l + n.1) t n.2 bh).apply c₁) 4
    (fun d n c₁ hd hn hnd _ hP => ?_) ?_ hp
  · refine (hP.copy fun p hr => ?_).congr fun p => ?_
    · rw [Rect.mem_at] at hr
      refine ⟨?_, dither_congr T c ?_ ?_ ?_ ?_⟩
      · rw [Rect.mem_at]
        omega
      · dsimp only
        omega
      · omega
      · dsimp only
        omega
      · dsimp only
        omega
    · simp only [Rect.mem_at]
      omega
  · omega

/-- Copies down of the rows that are there. -/
theorem copyDown_painted (hh : bh = h ∨ bh = 4) (hle : bh ≤ h) (hbh : 0 < bh) {c₁ : Card}
    (hp : Painted (· ∈ Rect.at l t w bh) (dither T c) c₀ c₁) :
    Painted (· ∈ Rect.at l t w h) (dither T c) c₀
      (applyAll ((doubling h bh).map fun c => .copy l t l (t + c.1) w c.2) c₁) := by
  rw [applyAll, List.foldl_map]
  refine doubling_induct (P := fun (d : ℕ) c₁ => Painted (· ∈ Rect.at l t w d) (dither T c) c₀ c₁)
    (fun c₁ n => (CardOp.copy l t l (t + n.1) w n.2).apply c₁) 4
    (fun d n c₁ hd hn hnd _ hP => ?_) ?_ hp
  · refine (hP.copy fun p hr => ?_).congr fun p => ?_
    · rw [Rect.mem_at] at hr
      refine ⟨?_, dither_congr T c ?_ ?_ ?_ ?_⟩
      · rw [Rect.mem_at]
        omega
      · dsimp only
        omega
      · omega
      · dsimp only
        omega
      · dsimp only
        omega
    · simp only [Rect.mem_at]
      omega
  · omega

end Spec

/-! ## The whole fill -/

/-- The calls put the dither in the rectangle. -/
theorem m8Fb16Solid_paint {T : Fb16Tables} (hT : T.Fits) (m : Fb16Mode) {l t r b : ℕ} (hlr : l < r)
    (htb : t < b) (c : UInt16) (blk : Mem ConvSeg) (s : Fb16State T) (c₀ : Card) :
    applyAll (m8Fb16Solid m l t r b c blk s).1 c₀ = (Rect.mk l t r b).paint (dither T c) c₀ := by
  have hrect : Rect.mk l t r b = Rect.at l t (r - l : ℕ) (b - t : ℕ) := by
    rw [Rect.at, Rect.mk.injEq]
    omega
  rw [hrect]
  unfold m8Fb16Solid
  dsimp only
  generalize hbw : (if r - l < 4 then r - l else 4) = bw
  generalize hbh : (if b - t < 4 then b - t else 4) = bh
  have hw : bw ≤ 4 ∧ 0 < bw ∧ bw ≤ r - l ∧ (bw = r - l ∨ bw = 4) := by
    split_ifs at hbw <;> omega
  have hh : bh ≤ 4 ∧ 0 < bh ∧ bh ≤ b - t ∧ (bh = b - t ∨ bh = 4) := by
    split_ifs at hbh <;> omega
  have hblk : IsBlock T c l t bw bh
      ((solidBlock s.cv (fun k => if k < 4 then c else s.src k) t l bw blk bh).2 .dst) :=
    fun j hj i hi => by
      rw [solidBlock_apply hT _ _ t l blk hw.2.1 hw.1 bh hj hi, if_pos (by omega)]
  generalize (solidBlock s.cv (fun k => if k < 4 then c else s.src k) t l bw blk bh).2 .dst = blk
    at hblk
  split_ifs with hflat
  · refine (Painted.eq_paint (((Painted.start _ c₀).fill (blk 0) fun p hp => ?_).congr fun p => ?_))
    · exact dither_eq_of_flat hblk hw.2.2.2 hh.2.2.2 hw.1 hh.1 hflat hp
    · rw [false_or]
  · rw [applyAll_append, applyAll_append]
    exact (copyDown_painted hh.2.2.2 hh.2.2.1 hh.2.1 (copyAcross_painted hw.2.2.2 hw.2.2.1 hw.2.1
      (blockCalls_painted hblk hw.2.1 c₀))).eq_paint

theorem pieceRect_inside {s y : ℕ} {l t r b : ℤ} :
    (pieceRect s y).Inside ⟨l, t, r, b⟩ ↔
      l ≤ (s * 32 : ℕ) ∧ (s * 32 + 32 : ℕ) ≤ r ∧ t ≤ y ∧ y < b := by
  unfold pieceRect Rect.Inside Rect.at M8_FB16_SEG_W
  dsimp only
  omega

theorem pieceRect_apart {s y : ℕ} {l t r b : ℤ} (hlr : l < r) :
    (pieceRect s y).Apart ⟨l, t, r, b⟩ ↔
      ¬ (l < (s * 32 + 32 : ℕ) ∧ (s * 32 : ℕ) < r ∧ t ≤ y ∧ y < b) := by
  have hseg : M8_FB16_SEG_W = 32 := rfl
  refine ⟨fun h hmeet => ?_, fun h p hp hr => h ?_⟩
  · refine h (max l (s * 32 : ℕ), y) ?_ ?_
    · rw [pieceRect, hseg, Rect.mem_at]
      dsimp only
      omega
    · rw [Rect.mem_iff]
      dsimp only
      omega
  · rw [pieceRect, hseg, Rect.mem_at] at hp
    rw [Rect.mem_iff] at hr
    dsimp only at hr
    omega

/-- For every rectangle on the screen and every colour : after `m8_fb16_solid` each pixel of the
rectangle is the dither of the colour at its own row and column, and no other pixel has
changed. A piece inside the rectangle has the fingerprint `M8_FB16_ROWDIFF` leaves for a piece of
that colour, wherever it finds one; a piece the rectangle only touches is forgotten, and no
other fingerprint has changed. -/
theorem m8_fb16_solid_eq_dither (m : Fb16Mode) {l t r b : ℕ} (hlr : l < r) (htb : t < b)
    (hr : r ≤ m.scrX) (hb : b ≤ m.scrY) (c : UInt16) (blk : Mem ConvSeg)
    (s : Fb16State m8Fb16Tables) (c₀ : Card) :
    let left := m8Fb16Solid m l t r b c blk s
    let card := applyAll left.1 c₀
    (∀ x y : ℕ, l ≤ x → x < r → t ≤ y → y < b → card (x, y) = m8Fb16Tables.ref y x c) ∧
      (∀ p, p ∉ Rect.mk l t r b → card p = c₀ p) ∧
      (s.hash = none → left.2.hash = none) ∧
      ∀ hash, s.hash = some hash → ∃ hash', left.2.hash = some hash' ∧
        ∀ i < M8_FB16_NSEG, ∀ y : ℕ,
          ((pieceRect i y).Inside ⟨l, t, r, b⟩ →
            ∀ (fb : Mem Unit) (fboff htoff count j : ℕ) (last : ℤ) (table : ℕ → UInt32),
              j < count → HoldsColour fb (fboff + 64 * j) c →
                hash' (pieceEntry (i, y)) =
                  (m8Fb16RowDiff fb fboff htoff count last table).table (htoff + j)) ∧
          (¬ (pieceRect i y).Inside ⟨l, t, r, b⟩ → ¬ (pieceRect i y).Apart ⟨l, t, r, b⟩ →
            hash' (pieceEntry (i, y)) = 0) ∧
          ((pieceRect i y).Apart ⟨l, t, r, b⟩ →
            hash' (pieceEntry (i, y)) = hash (pieceEntry (i, y))) := by
  intro left card
  have hcard : card = _ := m8Fb16Solid_paint m8Fb16Tables_fits m hlr htb c blk s c₀
  refine ⟨fun x y hlx hxr hty hyb => ?_, fun p hp => ?_, fun hnone => ?_, fun hash hsome => ?_⟩
  · rw [hcard, Rect.paint_mem (by rw [Rect.mem_iff]; dsimp only; omega)]
    rfl
  · rw [hcard, Rect.paint_not_mem hp]
  · change m8Fb16Known m l t r b c s.hash = none
    rw [hnone]
    rfl
  · have hleft : left.2.hash = m8Fb16Known m l t r b c (some hash) := by
      rw [← hsome]
      rfl
    obtain ⟨hash', hhash'⟩ : ∃ hash', m8Fb16Known m l t r b c (some hash) = some hash' := ⟨_, rfl⟩
    refine ⟨hash', hleft.trans hhash', fun i hi y => ?_⟩
    have hentry := m8Fb16Known_entry hash (m := m) (y := y) (l := l) (t := t) (c := c)
      (by omega) (show (l : ℤ) < r by omega) (by omega) (by omega) (show (b : ℤ) ≤ _ by omega) hi
    rw [hhash', Option.map_some, Option.some.injEq] at hentry
    rw [hentry, pieceRect_inside, pieceRect_apart (by omega)]
    refine ⟨fun hin fb fboff htoff count j last table hj hfb => ?_, fun hin happ => ?_,
      fun happ => ?_⟩
    · rw [if_pos hin, m8Fb16RowDiff_table fb fboff htoff last table hj,
        rdHash_eq_m8Fb16HashColour hfb]
    · rw [if_neg hin, if_pos (not_not.1 happ)]
    · rw [if_neg (by omega), if_neg happ]

/-- A rectangle of 37 by 6, with a whole piece in each of its rows. -/
theorem m8_fb16_solid_eq_dither_orange :
    let m : Fb16Mode := ⟨640, 480, .inl ⟨rfl, rfl⟩⟩
    let s : Fb16State m8Fb16Tables :=
      ⟨⟨none, m8Fb16Tables.cv 0, fun _ h => by simp at h⟩, fun _ => 0, some fun _ => 5⟩
    let left := m8Fb16Solid m 30 7 67 13 0xFC00 (fun _ _ => 0) s
    let card := applyAll left.1 fun _ => 0
    (∀ x y : ℕ, 30 ≤ x → x < 67 → 7 ≤ y → y < 13 →
        card (x, y) = m8Fb16Tables.ref y x 0xFC00) ∧
      (∀ p, p ∉ Rect.mk 30 7 67 13 → card p = 0) := by
  intro m s left card
  obtain ⟨hin, hout, -⟩ := m8_fb16_solid_eq_dither m (show 30 < 67 by decide)
    (show 7 < 13 by decide) (by decide) (by decide) 0xFC00 (fun _ _ => 0) s fun _ => 0
  exact ⟨hin, hout⟩

end Inboard
