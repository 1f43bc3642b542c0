import Inboard.Loop
import Inboard.Machine
import Inboard.Lz4Reader

/-!
# The swap compressor's decoder

`LZ4_Decompress` of SWAPCOMP.ASM, with `LZD_Ext` and `LZ_Copy`. Addresses are offsets :
the block is the segment `.src` from 0, ESI at entry, and the page is `.dst` from 0, EDI
at entry, so `lz_iend` is ECX and `lz_oend` is 4096. Memory goes on past both ends.
Lengths are 32-bit registers and wrap. A jump to `lzd_bad` is `.error`.

`lz4Decompress_safe` is the header comment of the routine for every block : it stays
inside the block and the page, and returns 0 or the bytes it produced.
`lz4Decompress_block` is what it returns for a block the format describes.
-/

set_option linter.unusedSectionVars false

namespace Inboard

/-- The two buffers a compressor routine is given. -/
inductive Seg where
  | src
  | dst
  deriving DecidableEq

/-- `PAGE_BYTES`. -/
def pageBytes : ℕ := 4096

/-! ## `LZ_Copy` -/

/-- `LZ_Copy` : `ecx` bytes by dwords, then the rest by bytes. -/
def lzCopy (s d : Seg) (ecx : ℕ) (c : Move Seg) : Move Seg :=
  (c.repMovs 4 s d (ecx / 4)).repMovs 1 s d (ecx % 4)

section Copy

variable (s d : Seg) (ecx : ℕ) (c : Move Seg)

@[simp] theorem lzCopy_esi : (lzCopy s d ecx c).esi = c.esi + ecx := by
  rw [lzCopy, Move.repMovs_esi, Move.repMovs_esi]
  omega

@[simp] theorem lzCopy_edi : (lzCopy s d ecx c).edi = c.edi + ecx := by
  rw [lzCopy, Move.repMovs_edi, Move.repMovs_edi]
  omega

/-- Between the two buffers `LZ_Copy` is one write of the source bytes. -/
theorem lzCopy_mem (h : s ≠ d) :
    (lzCopy s d ecx c).m.mem = c.m.mem.blit d c.edi (c.m.mem.bytes s c.esi ecx) := by
  have hsplit : ecx = ecx / 4 * 4 + ecx % 4 * 1 := by omega
  rw [lzCopy, Move.repMovs_mem h, Move.repMovs_mem h, Move.repMovs_esi, Move.repMovs_edi]
  conv_rhs => rw [hsplit, Mem.bytes_add, ← Mem.blit_append]
  rw [Mem.length_bytes, Mem.bytes_blit_ne _ h]

theorem lzCopy_written :
    (lzCopy s d ecx c).m.written d = c.m.written d ++ List.range' c.edi ecx := by
  rw [lzCopy, Move.written_repMovs, Move.written_repMovs, Move.repMovs_edi, List.append_assoc,
    List.range'_append_1]
  congr 2
  omega

theorem lzCopy_all {P : Access Seg → Prop} (hc : c.m.All P)
    (hP : ∀ j k, j + k ≤ ecx → P (.read s (c.esi + j) k) ∧ P (.write d (c.edi + j) k)) :
    (lzCopy s d ecx c).m.All P := by
  refine Move.all_repMovs _ _ _ _ _ (Move.all_repMovs _ _ _ _ _ hc fun j hj => hP j 4 ?_)
    fun j hj => ?_
  · omega
  · rw [Move.repMovs_esi, Move.repMovs_edi, Nat.add_assoc, Nat.add_assoc]
    exact hP _ 1 (by omega)

end Copy

/-- A string move inside the page, from `off` behind, in chunks no longer than `off`, is
a match. `base` is the memory before any output. -/
theorem repMovs_match {d : Seg} {k off : ℕ} (base : Mem Seg) (hk : k ≤ off) :
    ∀ (n : ℕ) (c : Move Seg) (out : List UInt8), c.m.mem = base.blit d 0 out →
      c.edi = out.length → c.esi + off = c.edi →
      (c.repMovs k d d n).m.mem = base.blit d 0 (Lz4.copyMatch off (n * k) out)
  | 0, c, out, hm, _, _ => by simpa [Move.repMovs, Lz4.copyMatch] using hm
  | n + 1, c, out, hm, hedi, hoff => by
    have hchunk : (c.movs k d d).m.mem = base.blit d 0 (Lz4.copyMatch off k out) := by
      have hread : (base.blit d 0 out).bytes d (0 + c.esi) k = (out.drop c.esi).take k :=
        base.bytes_blit_inside (by omega)
      rw [Nat.zero_add] at hread
      rw [Lz4.copyMatch_chunk out (by omega) hk, ← Mem.blit_append, Nat.zero_add,
        show out.length - off = c.esi by omega, ← hread, ← hm, ← hedi]
      rfl
    rw [Move.repMovs, repMovs_match base hk n _ (Lz4.copyMatch off k out) hchunk (by simp [hedi])
      (by simp; omega), ← Lz4.copyMatch_add, Nat.succ_mul, Nat.add_comm]

/-! ## The decoder -/

/-- `LZD_Ext` : add 255-run extension bytes to EAX. Carry, the input running out, is
`.error`. -/
def lzdExt (iend eax esi : ℕ) (m : Machine Seg) : Except (Machine Seg) (ℕ × ℕ × Machine Seg) :=
  if iend ≤ esi then .error m
  else
    let edx := (m.mem .src esi).toNat
    let m := m.read .src esi 1
    if edx = 255 then lzdExt iend (add32 eax edx) (esi + 1) m
    else .ok (add32 eax edx, esi + 1, m)
termination_by iend - esi

/-- A length : its nibble, extended if that is 15. -/
def lzdLen (iend nib esi : ℕ) (m : Machine Seg) : Except (Machine Seg) (ℕ × ℕ × Machine Seg) :=
  if nib = 15 then lzdExt iend nib esi m else .ok (nib, esi, m)

/-- The copy of `eax` literals, if the page and the block have room for them. -/
def lzdLitCopy (iend edi : ℕ) (len : ℕ × ℕ × Machine Seg) : Except (Machine Seg) (Move Seg) :=
  let (eax, esi, m) := len
  if sub32 pageBytes edi < eax then .error m
  else if sub32 iend esi < eax then .error m
  else .ok (lzCopy .src .dst eax ⟨esi, edi, m⟩)

/-- `lzd_loop` to the end of the literals. The token is kept in `lz_tok`. -/
def lzdLiterals (iend : ℕ) (c : Move Seg) : Except (Machine Seg) (ℕ × Move Seg) :=
  if iend ≤ c.esi then .error c.m
  else do
    let tok := (c.m.mem .src c.esi).toNat
    let len ← lzdLen iend (tok / 16) (c.esi + 1) (c.m.read .src c.esi 1)
    let c ← lzdLitCopy iend c.edi len
    return (tok, c)

/-- The copy of a match from `edx` back, by bytes where the period is short. -/
def lzdMatchCopy (edx edi : ℕ) (len : ℕ × ℕ × Machine Seg) : Except (Machine Seg) (Move Seg) :=
  let (eax, esi, m) := len
  let eax := add32 eax 4
  if sub32 pageBytes edi < eax then .error m
  else
    let c : Move Seg := ⟨sub32 edi edx, edi, m⟩
    let c := if edx < 4 then c.repMovs 1 .dst .dst eax else lzCopy .dst .dst eax c
    .ok ⟨esi, c.edi, c.m⟩

/-- The offset and the match that follow the literals. -/
def lzdMatch (iend tok : ℕ) (c : Move Seg) : Except (Machine Seg) (Move Seg) :=
  if sub32 iend c.esi < 2 then .error c.m
  else
    let edx := (c.m.mem .src c.esi).toNat + 256 * (c.m.mem .src (c.esi + 1)).toNat
    let m := c.m.read .src c.esi 2
    if edx = 0 then .error m
    else if sub32 c.edi 0 < edx then .error m
    else do
      let len ← lzdLen iend (tok % 16) (c.esi + 2) m
      lzdMatchCopy edx c.edi len

/-- One round of `lzd_loop`. It leaves with EAX : at `lzd_end` the bytes produced, at
`lzd_bad` 0. -/
def lzdStep (iend : ℕ) (c : Move Seg) : Move Seg ⊕ (ℕ × Machine Seg) :=
  match lzdLiterals iend c with
  | .error m => .inr (0, m)
  | .ok (tok, c) =>
    if iend ≤ c.esi then .inr (sub32 c.edi 0, c.m)
    else
      match lzdMatch iend tok c with
      | .error m => .inr (0, m)
      | .ok c => .inl c

/-! ### Every round reads its token -/

theorem lzdExt_advance (iend eax esi : ℕ) (m : Machine Seg) :
    Ends (fun _ => True) (fun r => esi < r.2.1) (lzdExt iend eax esi m) := by
  rw [lzdExt]
  dsimp only
  split_ifs with h1 h2
  · trivial
  · exact (lzdExt_advance iend _ _ _).mono (fun _ he => he) fun r hr => Nat.lt_of_succ_lt hr
  · exact Nat.lt_succ_self esi
termination_by iend - esi

theorem lzdLen_advance (iend nib esi : ℕ) (m : Machine Seg) :
    Ends (fun _ => True) (fun r => esi ≤ r.2.1) (lzdLen iend nib esi m) := by
  unfold lzdLen
  split_ifs
  · exact (lzdExt_advance iend nib esi m).mono (fun _ he => he) fun r hr => Nat.le_of_lt hr
  · exact Nat.le_refl esi

theorem lzdLiterals_advance (iend : ℕ) (c : Move Seg) :
    Ends (fun _ => True) (fun r => c.esi < iend ∧ c.esi < r.2.esi) (lzdLiterals iend c) := by
  unfold lzdLiterals
  split_ifs with h1
  · trivial
  · refine (lzdLen_advance iend _ _ _).bind fun r hr => ?_
    have hcopy : Ends (fun _ => True) (fun c' => r.2.1 ≤ c'.esi) (lzdLitCopy iend c.edi r) := by
      unfold lzdLitCopy
      dsimp only
      split_ifs
      · trivial
      · trivial
      · simp [Ends]
    exact hcopy.bind fun c' hc' => ⟨Nat.lt_of_not_le h1, Nat.lt_of_lt_of_le hr hc'⟩

theorem lzdMatch_advance (iend tok : ℕ) (c : Move Seg) :
    Ends (fun _ => True) (fun c' => c.esi ≤ c'.esi) (lzdMatch iend tok c) := by
  unfold lzdMatch
  dsimp only
  split_ifs
  · trivial
  · trivial
  · trivial
  · refine (lzdLen_advance iend _ _ _).bind fun r hr => ?_
    unfold lzdMatchCopy
    dsimp only
    split_ifs
    · trivial
    all_goals exact Nat.le_of_succ_le (Nat.le_of_succ_le hr)

theorem lzdStep_decreases {iend : ℕ} {c c' : Move Seg} (h : lzdStep iend c = .inl c') :
    iend - c'.esi < iend - c.esi := by
  have hlit := lzdLiterals_advance iend c
  unfold lzdStep at h
  cases hl : lzdLiterals iend c with
  | error m => simp [hl] at h
  | ok r =>
    obtain ⟨tok, c₁⟩ := r
    rw [hl] at h hlit
    obtain ⟨hin, hlt⟩ : c.esi < iend ∧ c.esi < c₁.esi := hlit
    dsimp only at h
    split_ifs at h with h2
    have hmatch := lzdMatch_advance iend tok c₁
    cases hm : lzdMatch iend tok c₁ with
    | error m => simp [hm] at h
    | ok c₂ =>
      rw [hm] at h hmatch
      have hle : c₁.esi ≤ c₂.esi := hmatch
      obtain rfl : c₂ = c' := Sum.inl.inj h
      omega

/-- `lzd_loop`. -/
def lzdLoop (iend : ℕ) : Loop (Move Seg) (ℕ × Machine Seg) where
  step := lzdStep iend
  measure c := iend - c.esi
  decreases _ _ h := lzdStep_decreases h

/-- `LZ4_Decompress` of the `ecx` bytes at ESI into the page at EDI : EAX and what it
leaves in memory. -/
def lz4Decompress (ecx : ℕ) (mem : Mem Seg) : ℕ × Machine Seg :=
  (lzdLoop ecx).run ⟨0, 0, ⟨mem, []⟩⟩

/-! ### Where it reads and writes -/

/-- An access inside the block of `iend` bytes, or inside the page. -/
def Access.InBlockAndPage (iend : ℕ) : Access Seg → Prop
  | .read .src a n => a + n ≤ iend
  | .read .dst a n => a + n ≤ pageBytes
  | .write .src _ _ => False
  | .write .dst a n => a + n ≤ pageBytes

/-- `m'` is `m` after reads inside the block. -/
structure BlockReads (iend : ℕ) (m m' : Machine Seg) : Prop where
  mem : m'.mem = m.mem
  written : m'.written .dst = m.written .dst
  all : m.All (Access.InBlockAndPage iend) → m'.All (Access.InBlockAndPage iend)

theorem BlockReads.refl (iend : ℕ) (m : Machine Seg) : BlockReads iend m m :=
  ⟨rfl, rfl, id⟩

theorem BlockReads.trans {iend : ℕ} {m m' m'' : Machine Seg} (h : BlockReads iend m m')
    (h' : BlockReads iend m' m'') : BlockReads iend m m'' :=
  ⟨h'.mem.trans h.mem, h'.written.trans h.written, h'.all ∘ h.all⟩

theorem blockReads_read {iend a n : ℕ} (m : Machine Seg) (h : a + n ≤ iend) :
    BlockReads iend m (m.read .src a n) :=
  ⟨rfl, by simp, fun hm => by simpa using ⟨hm, h⟩⟩

/-- `LZD_Ext` reads only inside the block. -/
theorem lzdExt_ends (iend eax esi : ℕ) (m : Machine Seg) :
    Ends (BlockReads iend m) (fun r => r.2.1 ≤ iend ∧ BlockReads iend m r.2.2)
      (lzdExt iend eax esi m) := by
  rw [lzdExt]
  dsimp only
  split_ifs with h1 h2
  · exact BlockReads.refl iend m
  · have hread : BlockReads iend m (m.read .src esi 1) := blockReads_read m (by omega)
    refine (lzdExt_ends iend _ _ _).mono (fun e he => hread.trans he) fun r hr => ?_
    exact ⟨hr.1, hread.trans hr.2⟩
  · exact ⟨Nat.lt_of_not_le h1, blockReads_read m (by omega)⟩
termination_by iend - esi

theorem lzdLen_ends {iend esi : ℕ} (nib : ℕ) (m : Machine Seg) (h : esi ≤ iend) :
    Ends (BlockReads iend m) (fun r => r.2.1 ≤ iend ∧ BlockReads iend m r.2.2)
      (lzdLen iend nib esi m) := by
  unfold lzdLen
  split_ifs
  · exact lzdExt_ends iend nib esi m
  · exact ⟨h, BlockReads.refl iend m⟩

/-- The state at `lzd_loop` : EDI bytes have been written, in order, and every access so
far was inside the buffers. -/
structure LzdSafe (iend : ℕ) (c : Move Seg) : Prop where
  esi_le : c.esi ≤ iend
  edi_le : c.edi ≤ pageBytes
  all : c.m.All (Access.InBlockAndPage iend)
  written : c.m.written .dst = List.range' 0 c.edi

/-- What a jump to `lzd_bad` leaves : some bytes written, in order, every access inside
the buffers. -/
def LzdBad (iend : ℕ) (m : Machine Seg) : Prop :=
  m.All (Access.InBlockAndPage iend) ∧ ∃ n ≤ pageBytes, m.written .dst = List.range' 0 n

theorem LzdSafe.bad {iend : ℕ} {c : Move Seg} (h : LzdSafe iend c) {m : Machine Seg}
    (hm : BlockReads iend c.m m) : LzdBad iend m :=
  ⟨hm.all h.all, c.edi, h.edi_le, hm.written.trans h.written⟩

theorem lzdLitCopy_ends {iend : ℕ} {c : Move Seg} (h : LzdSafe iend c)
    {r : ℕ × ℕ × Machine Seg} (hr : r.2.1 ≤ iend) (hm : BlockReads iend c.m r.2.2) :
    Ends (LzdBad iend) (LzdSafe iend) (lzdLitCopy iend c.edi r) := by
  obtain ⟨eax, esi, m⟩ := r
  dsimp only [lzdLitCopy] at hr hm ⊢
  split_ifs with h1 h2
  · exact h.bad hm
  · exact h.bad hm
  · have hpage : sub32 pageBytes c.edi = pageBytes - c.edi := sub32_eq h.edi_le
    have hblock : sub32 iend esi = iend - esi := sub32_eq hr
    have hedi := h.edi_le
    refine ⟨?_, ?_, lzCopy_all _ _ _ _ (hm.all h.all) ?_, ?_⟩
    · simp
      omega
    · simp
      omega
    · intro j k hjk
      exact ⟨by simp [Access.InBlockAndPage]; omega, by simp [Access.InBlockAndPage]; omega⟩
    · rw [lzCopy_written, hm.written, h.written, lzCopy_edi]
      simpa using List.range'_append_1 (s := 0) (m := c.edi) (n := eax)

theorem lzdLiterals_ends {iend : ℕ} {c : Move Seg} (h : LzdSafe iend c) :
    Ends (LzdBad iend) (fun r => LzdSafe iend r.2) (lzdLiterals iend c) := by
  unfold lzdLiterals
  split_ifs with h1
  · exact h.bad (BlockReads.refl iend c.m)
  · have hread : BlockReads iend c.m (c.m.read .src c.esi 1) := blockReads_read c.m (by omega)
    have hlen := lzdLen_ends ((c.m.mem .src c.esi).toNat / 16) (c.m.read .src c.esi 1)
      (Nat.lt_of_not_le h1)
    refine (hlen.mono (fun e he => h.bad (hread.trans he)) fun r hr => hr).bind fun r hr => ?_
    exact (lzdLitCopy_ends h hr.1 (hread.trans hr.2)).bind fun c' hc' => hc'

theorem lzdMatchCopy_ends {iend edx : ℕ} {c : Move Seg} (h : LzdSafe iend c) (hedx : edx ≤ c.edi)
    {r : ℕ × ℕ × Machine Seg} (hr : r.2.1 ≤ iend) (hm : BlockReads iend c.m r.2.2) :
    Ends (LzdBad iend) (LzdSafe iend) (lzdMatchCopy edx c.edi r) := by
  obtain ⟨eax, esi, m⟩ := r
  dsimp only [lzdMatchCopy] at hr hm ⊢
  split_ifs with h1 h2
  · exact h.bad hm
  all_goals
    have hedi := h.edi_le
    have hpage : sub32 pageBytes c.edi = pageBytes - c.edi := sub32_eq hedi
    have hsrc : sub32 c.edi edx = c.edi - edx := sub32_eq hedx
  · refine ⟨hr, ?_, Move.all_repMovs _ _ _ _ _ (hm.all h.all) ?_, ?_⟩
    · rw [Move.repMovs_edi]
      dsimp only
      omega
    · intro j hj
      simp only [Access.InBlockAndPage, hsrc]
      omega
    · rw [Move.written_repMovs, hm.written, h.written, Move.repMovs_edi]
      simpa using List.range'_append_1 (s := 0) (m := c.edi) (n := add32 eax 4)
  · refine ⟨hr, ?_, lzCopy_all _ _ _ _ (hm.all h.all) ?_, ?_⟩
    · rw [lzCopy_edi]
      dsimp only
      omega
    · intro j k hjk
      simp only [Access.InBlockAndPage, hsrc]
      omega
    · rw [lzCopy_written, hm.written, h.written, lzCopy_edi]
      simpa using List.range'_append_1 (s := 0) (m := c.edi) (n := add32 eax 4)

theorem lzdMatch_ends {iend : ℕ} (tok : ℕ) {c : Move Seg} (h : LzdSafe iend c) :
    Ends (LzdBad iend) (LzdSafe iend) (lzdMatch iend tok c) := by
  unfold lzdMatch
  dsimp only
  split_ifs with h1 h2 h3
  · exact h.bad (BlockReads.refl iend c.m)
  all_goals
    have htwo : c.esi + 2 ≤ iend := by
      have := sub32_eq h.esi_le
      omega
    have hread : BlockReads iend c.m (c.m.read .src c.esi 2) := blockReads_read c.m htwo
  · exact h.bad hread
  · exact h.bad hread
  · have hoff : (c.m.mem .src c.esi).toNat + 256 * (c.m.mem .src (c.esi + 1)).toNat ≤ c.edi := by
      have := sub32_eq (Nat.zero_le c.edi)
      omega
    have hlen := lzdLen_ends (tok % 16) (c.m.read .src c.esi 2) htwo
    refine (hlen.mono (fun e he => h.bad (hread.trans he)) fun r hr => hr).bind fun r hr => ?_
    exact lzdMatchCopy_ends h hoff hr.1 (hread.trans hr.2)

/-- What leaving `lzd_loop` gives : EAX is 0 or the number of bytes written, at most a
page, in order, and every access was inside the buffers. -/
def LzdResult (iend : ℕ) (r : ℕ × Machine Seg) : Prop :=
  r.2.All (Access.InBlockAndPage iend) ∧
    ∃ n ≤ pageBytes, r.2.written .dst = List.range' 0 n ∧ (r.1 = 0 ∨ r.1 = n)

theorem LzdBad.result {iend : ℕ} {m : Machine Seg} (h : LzdBad iend m) :
    LzdResult iend (0, m) := by
  obtain ⟨hall, n, hn, hw⟩ := h
  exact ⟨hall, n, hn, hw, Or.inl rfl⟩

/-- One round of `lzd_loop` stays inside the buffers. -/
theorem lzdStep_safe {iend : ℕ} {c : Move Seg} (h : LzdSafe iend c) :
    match lzdStep iend c with
    | .inl c' => LzdSafe iend c'
    | .inr r => LzdResult iend r := by
  have hlit := lzdLiterals_ends h
  unfold lzdStep
  cases hl : lzdLiterals iend c with
  | error m =>
    rw [hl] at hlit
    exact LzdBad.result hlit
  | ok r =>
    obtain ⟨tok, c₁⟩ := r
    rw [hl] at hlit
    have h₁ : LzdSafe iend c₁ := hlit
    dsimp only
    split_ifs with h2
    · have hedi := h₁.edi_le
      exact ⟨h₁.all, c₁.edi, hedi, h₁.written, Or.inr (sub32_eq (Nat.zero_le _))⟩
    · have hmatch := lzdMatch_ends tok h₁
      cases hm : lzdMatch iend tok c₁ with
      | error m =>
        rw [hm] at hmatch
        exact LzdBad.result hmatch
      | ok c₂ =>
        rw [hm] at hmatch
        exact hmatch

/-- For every block of any length and content, `LZ4_Decompress` reads the block only
inside its `ecx` bytes, reads and writes the page only inside its 4096, writes the page
forward from its start, and returns 0 or the number of bytes it wrote. -/
theorem lz4Decompress_safe (ecx : ℕ) (mem : Mem Seg) :
    (lz4Decompress ecx mem).2.All (Access.InBlockAndPage ecx) ∧
      ∃ n ≤ pageBytes, (lz4Decompress ecx mem).2.written .dst = List.range' 0 n ∧
        ((lz4Decompress ecx mem).1 = 0 ∨ (lz4Decompress ecx mem).1 = n) := by
  have hround : ∀ c c', LzdSafe ecx c → (lzdLoop ecx).step c = .inl c' → LzdSafe ecx c' := by
    intro c c' hc hstep
    have h := lzdStep_safe hc
    rwa [show lzdStep ecx c = .inl c' from hstep] at h
  have hleave : ∀ c r, LzdSafe ecx c → (lzdLoop ecx).step c = .inr r → LzdResult ecx r := by
    intro c r hc hstep
    have h := lzdStep_safe hc
    rwa [show lzdStep ecx c = .inr r from hstep] at h
  have hstart : LzdSafe ecx ⟨0, 0, ⟨mem, []⟩⟩ :=
    ⟨Nat.zero_le _, Nat.zero_le _, by simp [Machine.All], by simp [Machine.written]⟩
  exact (lzdLoop ecx).run_induct hround hleave _ hstart

/-! ### What it makes of a block -/

theorem add32_mod {a b : ℕ} (ha : a < 2 ^ 32) (hb : b < 2 ^ 32) : add32 a b = (a + b) % 2 ^ 32 := by
  unfold add32
  split_ifs with h
  · exact (Nat.mod_eq_of_lt h).symm
  · omega

/-- A routine reads a length as the format has it : it jumps out where the block ends, or falls
through with the length and ESI at the bytes left. -/
def LenReads (iend : ℕ) (m : Machine Seg) (x : Except (Machine Seg) (ℕ × ℕ × Machine Seg)) :
    Option (ℕ × List UInt8) → Prop
  | none => ∃ m', x = .error m'
  | some (n, bs) => ∃ esi m', x = .ok (n, esi, m') ∧ n < 2 ^ 32 ∧ m'.mem = m.mem ∧
      m.mem.Holds .src esi bs ∧ esi + bs.length = iend

theorem lzdExt_reads {iend : ℕ} : ∀ {bs : List UInt8} {eax esi : ℕ} {m : Machine Seg},
    eax < 2 ^ 32 → m.mem.Holds .src esi bs → esi + bs.length = iend →
      LenReads iend m (lzdExt iend eax esi m) (Lz4.readExt .word bs eax)
  | [], eax, esi, m, _, _, hend => by
    rw [lzdExt, if_pos (by simp at hend; omega)]
    exact ⟨m, rfl⟩
  | b :: bs, eax, esi, m, heax, hm, hend => by
    rw [Mem.holds_cons] at hm
    rw [List.length_cons] at hend
    have hlt := b.toNat_lt
    have hsum := add32_mod heax (by omega : b.toNat < 2 ^ 32)
    have hword : (eax + b.toNat) % 2 ^ 32 < 2 ^ 32 := Nat.mod_lt _ (by omega)
    rw [lzdExt, if_neg (by omega), Lz4.readExt]
    dsimp only
    rw [hm.1, hsum]
    by_cases h255 : b.toNat = 255
    · rw [if_pos h255, if_pos h255]
      exact lzdExt_reads (m := m.read .src esi 1) hword hm.2 (by omega)
    · rw [if_neg h255, if_neg h255]
      exact ⟨esi + 1, m.read .src esi 1, rfl, hword, rfl, hm.2, by omega⟩

theorem lzdLen_reads {iend esi nib : ℕ} {m : Machine Seg} {bs : List UInt8} (hnib : nib ≤ 15)
    (hm : m.mem.Holds .src esi bs) (hend : esi + bs.length = iend) :
    LenReads iend m (lzdLen iend nib esi m) (Lz4.readLen .word nib bs) := by
  unfold lzdLen Lz4.readLen
  split_ifs
  · exact lzdExt_reads (by omega) hm hend
  · exact ⟨esi, m, rfl, by omega, rfl, hm, hend⟩

/-- The state at `lzd_loop` once `out` is in the page and `bs` is left of the block. `mem` is the
memory at entry. -/
structure LzdReads (mem : Mem Seg) (iend : ℕ) (bs out : List UInt8) (c : Move Seg) : Prop where
  edi : c.edi = out.length
  page : c.m.mem = mem.blit .dst 0 out
  bytes : mem.Holds .src c.esi bs
  ends : c.esi + bs.length = iend
  room : out.length ≤ pageBytes

section Out

variable {mem : Mem Seg} {iend : ℕ} {bs out : List UInt8} {c : Move Seg}

theorem LzdReads.src (h : LzdReads mem iend bs out c) : c.m.mem .src = mem .src := by
  rw [h.page, Mem.blit_ne _ (by decide)]

/-- The literals go to the page, if there are as many and it has room. -/
theorem lzdLitCopy_reads (h : LzdReads mem iend bs out c) (lit : ℕ) {esi : ℕ} {m : Machine Seg}
    {rest : List UInt8} (hm : m.mem = c.m.mem) (hrest : mem.Holds .src esi rest)
    (hend : esi + rest.length = iend) :
    if pageBytes < out.length + lit ∨ rest.length < lit then
      ∃ m', lzdLitCopy iend c.edi (lit, esi, m) = .error m'
    else ∃ c', lzdLitCopy iend c.edi (lit, esi, m) = .ok c' ∧
      LzdReads mem iend (rest.drop lit) (out ++ rest.take lit) c' := by
  have hedi := h.edi
  have hroom := h.room
  have hpage : sub32 pageBytes c.edi = pageBytes - c.edi := sub32_eq (by omega)
  have hblock : sub32 iend esi = iend - esi := sub32_eq (by omega)
  dsimp only [lzdLitCopy]
  rw [hpage, hblock]
  by_cases hp : pageBytes - c.edi < lit
  · rw [if_pos (Or.inl (by omega)), if_pos hp]
    exact ⟨m, rfl⟩
  by_cases hb : iend - esi < lit
  · rw [if_pos (Or.inr (by omega)), if_neg hp, if_pos hb]
    exact ⟨m, rfl⟩
  rw [if_neg (by omega), if_neg hp, if_neg hb]
  have htake : (rest.take lit).length = lit := by
    rw [List.length_take]
    omega
  have hsplit : mem.Holds .src esi (rest.take lit ++ rest.drop lit) := by
    rwa [List.take_append_drop]
  rw [Mem.holds_append, htake] at hsplit
  have hbytes : m.mem.bytes .src esi lit = rest.take lit := by
    have hheld := (Mem.holds_congr (hm ▸ h.src : m.mem .src = mem .src) _ _).2 hsplit.1
    rwa [Mem.Holds, htake] at hheld
  refine ⟨_, rfl, ?_, ?_, ?_, ?_, ?_⟩
  · simp only [lzCopy_edi, List.length_append, htake]
    omega
  · rw [lzCopy_mem _ _ _ _ (by decide), hbytes, hm, h.page, hedi, ← Mem.blit_append, Nat.zero_add]
  · rw [lzCopy_esi]
    exact hsplit.2
  · rw [lzCopy_esi, List.length_drop]
    dsimp only
    omega
  · rw [List.length_append, htake]
    omega

/-- A token and its literals. -/
theorem lzdLiterals_reads (h : LzdReads mem iend bs out c) :
    match Lz4.readLits .word pageBytes bs out with
    | none => ∃ m, lzdLiterals iend c = .error m
    | some (lo, rest, out') => ∃ tok c', lzdLiterals iend c = .ok (tok, c') ∧ tok % 16 = lo ∧
        LzdReads mem iend rest out' c' := by
  have hends := h.ends
  have hsrc := h.src
  cases bs with
  | nil =>
    rw [List.length_nil] at hends
    rw [lzdLiterals, if_pos (by omega)]
    exact ⟨c.m, rfl⟩
  | cons tok bs =>
    obtain ⟨htok, hbytes⟩ := (Mem.holds_cons _ _ _ _ _).1 h.bytes
    rw [List.length_cons] at hends
    have hlt := tok.toNat_lt
    have hlen : LenReads iend (c.m.read .src c.esi 1)
        (lzdLen iend (tok.toNat / 16) (c.esi + 1) (c.m.read .src c.esi 1))
        (Lz4.readLen .word (tok.toNat / 16) bs) :=
      lzdLen_reads (by omega) ((Mem.holds_congr hsrc _ _).2 hbytes) (by omega)
    rw [lzdLiterals, if_neg (by omega), hsrc, htok, Lz4.readLits]
    cases hread : Lz4.readLen .word (tok.toNat / 16) bs with
    | none =>
      rw [hread] at hlen
      obtain ⟨m', hx⟩ := hlen
      dsimp only
      rw [hx]
      exact ⟨m', rfl⟩
    | some r =>
      obtain ⟨lit, rest⟩ := r
      rw [hread] at hlen
      obtain ⟨esi, m', hx, -, hmem, hrest, hend⟩ := hlen
      have hcopy := lzdLitCopy_reads h lit hmem ((Mem.holds_congr hsrc _ _).1 hrest) hend
      dsimp only
      rw [hx]
      simp only [Option.bind_some, bind, Except.bind]
      split_ifs at hcopy ⊢ with hroom
      · obtain ⟨m₁, hcopy⟩ := hcopy
        rw [hcopy]
        exact ⟨m₁, rfl⟩
      · obtain ⟨c', hcopy, hout⟩ := hcopy
        rw [hcopy]
        exact ⟨tok.toNat, c', rfl, rfl, hout⟩

/-- The copy of a match extends the output by it, if the page has room. -/
theorem lzdMatchCopy_reads {edx len esi : ℕ} {m : Machine Seg} {rest : List UInt8}
    (h : LzdReads mem iend bs out c) (hm : m.mem = c.m.mem) (hpos : 1 ≤ edx)
    (hoff : edx ≤ out.length) (hlen : len < 2 ^ 32) (hrest : mem.Holds .src esi rest)
    (hend : esi + rest.length = iend) :
    if pageBytes < out.length + (len + 4) % 2 ^ 32 then
      ∃ m', lzdMatchCopy edx c.edi (len, esi, m) = .error m'
    else ∃ c', lzdMatchCopy edx c.edi (len, esi, m) = .ok c' ∧
      LzdReads mem iend rest (Lz4.copyMatch edx ((len + 4) % 2 ^ 32) out) c' := by
  have hedi := h.edi
  have hroom := h.room
  have heax : add32 len 4 = (len + 4) % 2 ^ 32 := add32_mod hlen (by omega)
  have hpage : sub32 pageBytes c.edi = pageBytes - c.edi := sub32_eq (by omega)
  have hback : sub32 c.edi edx = c.edi - edx := sub32_eq (by omega)
  have hmem : m.mem = mem.blit .dst 0 out := hm.trans h.page
  dsimp only [lzdMatchCopy]
  rw [heax, hpage, hback]
  generalize (len + 4) % 2 ^ 32 = n
  by_cases hp : pageBytes - c.edi < n
  · rw [if_pos (by omega), if_pos hp]
    exact ⟨m, rfl⟩
  rw [if_neg (by omega), if_neg hp]
  refine ⟨_, rfl, ?_, ?_, hrest, hend, ?_⟩
  · split_ifs
    · simp [Move.repMovs_edi, hedi]
    · simp [hedi]
  · split_ifs with h4
    · have hcopy := repMovs_match mem hpos n ⟨c.edi - edx, c.edi, m⟩ out hmem hedi
        (Nat.sub_add_cancel (by omega))
      rwa [Nat.mul_one] at hcopy
    · have hdwords := repMovs_match mem (Nat.le_of_not_lt h4) (n / 4) ⟨c.edi - edx, c.edi, m⟩ out
        hmem hedi (Nat.sub_add_cancel (by omega))
      have hbytes := repMovs_match mem hpos (n % 4)
        (Move.repMovs 4 .dst .dst (n / 4) ⟨c.edi - edx, c.edi, m⟩) _ hdwords
        (by simp [Move.repMovs_edi, hedi]) (by
          simp only [Move.repMovs_esi, Move.repMovs_edi]
          omega)
      rw [← Lz4.copyMatch_add, Nat.mul_one, show n / 4 * 4 + n % 4 = n by omega] at hbytes
      exact hbytes
  · rw [Lz4.length_copyMatch]
    omega

/-- An offset and a match. -/
theorem lzdMatch_reads {tok lo : ℕ} (h : LzdReads mem iend bs out c) (hlo : tok % 16 = lo) :
    match Lz4.readMatch .word pageBytes lo bs out with
    | none => ∃ m, lzdMatch iend tok c = .error m
    | some (rest, out') => ∃ c', lzdMatch iend tok c = .ok c' ∧ LzdReads mem iend rest out' c' := by
  have hsrc := h.src
  have hedi : sub32 c.edi 0 = out.length := (sub32_eq (Nat.zero_le _)).trans h.edi
  have hleft : sub32 iend c.esi = bs.length := by
    have hends := h.ends
    rw [sub32_eq (by omega)]
    omega
  unfold lzdMatch
  dsimp only
  rw [hleft, hedi, hlo]
  match bs, h with
  | [], _ => exact ⟨c.m, rfl⟩
  | [_], _ => exact ⟨c.m, rfl⟩
  | b₀ :: b₁ :: bs, h =>
    obtain ⟨hb₀, hb₁, hbytes⟩ := by
      have hheld := h.bytes
      rwa [Mem.holds_cons, Mem.holds_cons] at hheld
    have hends := h.ends
    simp only [List.length_cons] at hends ⊢
    rw [if_neg (by omega), hsrc, hb₀, hb₁, Lz4.readMatch]
    dsimp only
    by_cases hzero : b₀.toNat + 256 * b₁.toNat = 0
    · rw [if_pos hzero, if_pos (Or.inl hzero)]
      exact ⟨_, rfl⟩
    by_cases hfar : out.length < b₀.toNat + 256 * b₁.toNat
    · rw [if_neg hzero, if_pos hfar, if_pos (Or.inr hfar)]
      exact ⟨_, rfl⟩
    rw [if_neg hzero, if_neg hfar, if_neg (by omega)]
    have hlen : LenReads iend (c.m.read .src c.esi 2)
        (lzdLen iend lo (c.esi + 2) (c.m.read .src c.esi 2)) (Lz4.readLen .word lo bs) :=
      lzdLen_reads (by omega) ((Mem.holds_congr hsrc _ _).2 hbytes) (by omega)
    cases hread : Lz4.readLen .word lo bs with
    | none =>
      rw [hread] at hlen
      obtain ⟨m', hx⟩ := hlen
      rw [hx]
      exact ⟨m', rfl⟩
    | some r =>
      obtain ⟨len, rest⟩ := r
      rw [hread] at hlen
      obtain ⟨esi, m', hx, hword, hmem, hrest, hend⟩ := hlen
      have hcopy := lzdMatchCopy_reads h hmem (Nat.pos_of_ne_zero hzero) (Nat.le_of_not_lt hfar)
        hword ((Mem.holds_congr hsrc _ _).1 hrest) hend
      rw [hx]
      simp only [Option.bind_some, bind, Except.bind]
      rw [show Lz4.Width.word.mod = 2 ^ 32 from rfl]
      split_ifs at hcopy ⊢ with hroom
      · exact hcopy
      · exact hcopy

/-- One round of `lzd_loop` reads as the format has it. -/
theorem lzdStep_reads (h : LzdReads mem iend bs out c) :
    match Lz4.readStep .word pageBytes (bs, out) with
    | .inl (rest, out') => ∃ c', lzdStep iend c = .inl c' ∧ LzdReads mem iend rest out' c'
    | .inr none => ∃ m, lzdStep iend c = .inr (0, m)
    | .inr (some page) => ∃ m, lzdStep iend c = .inr (page.length, m) ∧
        m.mem = mem.blit .dst 0 page := by
  have hlits := lzdLiterals_reads h
  unfold Lz4.readStep lzdStep
  dsimp only
  cases hread : Lz4.readLits .word pageBytes bs out with
  | none =>
    rw [hread] at hlits
    obtain ⟨m, hlits⟩ := hlits
    rw [hlits]
    exact ⟨m, rfl⟩
  | some r =>
    obtain ⟨lo, rest, out'⟩ := r
    rw [hread] at hlits
    obtain ⟨tok, c', hlits, hlo, hout⟩ := hlits
    have hends := hout.ends
    rw [hlits]
    dsimp only
    cases rest with
    | nil =>
      rw [List.length_nil] at hends
      rw [if_pos (by omega), sub32_eq (Nat.zero_le _), hout.edi]
      exact ⟨c'.m, rfl, hout.page⟩
    | cons b rest =>
      rw [List.length_cons] at hends
      rw [if_neg (by omega)]
      have hmatch := lzdMatch_reads hout hlo
      dsimp only
      cases hm : Lz4.readMatch .word pageBytes lo (b :: rest) out' with
      | none =>
        rw [hm] at hmatch
        obtain ⟨m, hmatch⟩ := hmatch
        rw [hmatch]
        exact ⟨m, rfl⟩
      | some p =>
        rw [hm] at hmatch
        obtain ⟨c₂, hmatch, hout₂⟩ := hmatch
        rw [hmatch]
        exact ⟨c₂, rfl, hout₂⟩

end Out

theorem lzdLoop_reads {mem : Mem Seg} {iend : ℕ} {bs : List UInt8} :
    ∀ {out : List UInt8} {c : Move Seg}, LzdReads mem iend bs out c →
      match (Lz4.readLoop .word pageBytes).run (bs, out) with
      | none => ∃ m, (lzdLoop iend).run c = (0, m)
      | some page => ∃ m, (lzdLoop iend).run c = (page.length, m) ∧
          m.mem = mem.blit .dst 0 page := by
  induction hn : bs.length using Nat.strong_induction_on generalizing bs with
  | _ n ih =>
    subst hn
    intro out c h
    have hround := lzdStep_reads h
    cases hstep : (Lz4.readLoop .word pageBytes).step (bs, out) with
    | inl p =>
      have hless := (Lz4.readLoop .word pageBytes).decreases _ _ hstep
      rw [(Lz4.readLoop .word pageBytes).run_of_inl hstep]
      change Lz4.readStep .word pageBytes (bs, out) = .inl p at hstep
      rw [hstep] at hround
      obtain ⟨c', hround, hout⟩ := hround
      rw [(lzdLoop iend).run_of_inl hround]
      exact ih _ hless rfl hout
    | inr r =>
      rw [(Lz4.readLoop .word pageBytes).run_of_inr hstep]
      change Lz4.readStep .word pageBytes (bs, out) = .inr r at hstep
      rw [hstep] at hround
      cases r with
      | none =>
        obtain ⟨m, hround⟩ := hround
        exact ⟨m, (lzdLoop iend).run_of_inr hround⟩
      | some page =>
        obtain ⟨m, hround, hmem⟩ := hround
        exact ⟨m, (lzdLoop iend).run_of_inr hround, hmem⟩

/-- `LZ4_Decompress` of a block is what a reader with 32-bit lengths makes of it. -/
theorem lz4Decompress_reads {mem : Mem Seg} {bs : List UInt8} (hbs : mem.Holds .src 0 bs) :
    match (Lz4.readLoop .word pageBytes).run (bs, []) with
    | none => ∃ m, lz4Decompress bs.length mem = (0, m)
    | some page => ∃ m, lz4Decompress bs.length mem = (page.length, m) ∧
        m.mem = mem.blit .dst 0 page :=
  lzdLoop_reads ⟨rfl, by simp, hbs, Nat.zero_add _, Nat.zero_le _⟩

/-- A length of at most a page is as it is in a register. -/
theorem lz4_word : ∀ n ≤ pageBytes, n % Lz4.Width.word.mod = n :=
  fun _ hn => Nat.mod_eq_of_lt (Nat.lt_of_le_of_lt hn (by decide))

/-- `LZ4_Decompress` of the bytes of valid sequences and last literals puts what they
stand for in the page, and returns its length. -/
theorem lz4Decompress_block {mem : Mem Seg} {seqs : List Lz4.Seq} {lits : List UInt8}
    (hvalid : Lz4.SeqsValid 0 seqs)
    (hblock : mem.Holds .src 0 (Lz4.encodeSeqs seqs ++ Lz4.encodeLast lits))
    (hpage : (Lz4.expand [] seqs ++ lits).length ≤ pageBytes) :
    ∃ m, lz4Decompress (Lz4.encodeSeqs seqs ++ Lz4.encodeLast lits).length mem =
        ((Lz4.expand [] seqs ++ lits).length, m) ∧
      m.mem = mem.blit .dst 0 (Lz4.expand [] seqs ++ lits) := by
  have hlast : Lz4.encodeLast lits = Lz4.encodeEnd lits.length 0 lits := rfl
  have hreads := lz4Decompress_reads hblock
  rwa [hlast, Lz4.readLoop_seqs lz4_word (Nat.zero_le _) hvalid hpage] at hreads

end Inboard
