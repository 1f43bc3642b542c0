import Inboard.Lz4Compress

/-!
# The encoder in its buffers

What `LZ4_Compress` touches. `Access.InPageAndBlock n` : the page is only read, inside its
4096 bytes, and the output only between its start and its first `n` bytes. The output is
read too, but only for the `or` that puts a match length into a token written before.

`lzcStep_bounds` carries `n = lz_op` round `lzc_loop`, so that at the end `n` is the
length returned, and that is bounded by what the block stands for
(`lz4Compress_eax_le`). The same round keeps where the matches start
(`Lz4.StartBefore`) : the look-up stops 12 bytes before the end of the page, and going
back only moves a match's start down (`lzcBack_le`).
-/

set_option linter.unusedSectionVars false

namespace Inboard

/-! ## The end conditions of a block -/

namespace Lz4

/-- From `p` bytes of output on, each match starts at least 12 bytes before `n`. -/
def StartBefore (n : ℕ) : ℕ → List Seq → Prop
  | _, [] => True
  | p, s :: seqs => p + s.lits.length + 12 ≤ n ∧ StartBefore n (p + s.lits.length + s.len) seqs

theorem startBefore_append (n : ℕ) : ∀ (out : List UInt8) (xs ys : List Seq),
    StartBefore n out.length (xs ++ ys) ↔
      StartBefore n out.length xs ∧ StartBefore n (expand out xs).length ys
  | _, [], _ => by simp [StartBefore, expand]
  | out, x :: xs, ys => by
    have ih := startBefore_append n (x.expand out) xs ys
    rw [length_expand_seq] at ih
    simp only [List.cons_append, StartBefore, expand, ih, and_assoc]

end Lz4

/-! ## The accesses of its routines -/

/-- Reads inside the page, and accesses to the first `n` bytes of the output. -/
def Access.InPageAndBlock (n : ℕ) : Access Seg → Prop
  | .read .src a k => a + k ≤ pageBytes
  | .read .dst a k => a + k ≤ n
  | .write .src _ _ => False
  | .write .dst a k => a + k ≤ n

theorem Access.InPageAndBlock.mono {n n' : ℕ} (h : n ≤ n') :
    ∀ {a : Access Seg}, a.InPageAndBlock n → a.InPageAndBlock n'
  | .read .src _ _, ha => ha
  | .read .dst _ _, ha => Nat.le_trans ha h
  | .write .dst _ _, ha => Nat.le_trans ha h

/-- Every access so far was inside the page and the first `n` bytes of the output. -/
abbrev Machine.InBuffers (n : ℕ) (m : Machine Seg) : Prop := m.All (Access.InPageAndBlock n)

theorem Machine.InBuffers.mono {n n' : ℕ} {m : Machine Seg} (hm : m.InBuffers n) (h : n ≤ n') :
    m.InBuffers n' :=
  fun a ha => (hm a ha).mono h

theorem Machine.InBuffers.readPage {n a k : ℕ} {m : Machine Seg} (hm : m.InBuffers n)
    (h : a + k ≤ pageBytes) : (m.read .src a k).InBuffers n :=
  (m.all_read _ _ _ _).2 ⟨hm, h⟩

theorem Machine.InBuffers.storeOut {n a : ℕ} {m : Machine Seg} {bs : List UInt8}
    (hm : m.InBuffers n) (h : a + bs.length ≤ n) : (m.store .dst a bs).InBuffers n :=
  (m.all_store _ _ _ _).2 ⟨hm, h⟩

theorem lzPutLen_inBuffers {n : ℕ} (ecx : ℕ) : ∀ {edi : ℕ} {m : Machine Seg}, m.InBuffers n →
    (lzPutLen ecx edi m).1 ≤ n → (lzPutLen ecx edi m).2.InBuffers n := by
  induction ecx using Nat.strong_induction_on with
  | _ ecx ih =>
    intro edi m hm hn
    rw [(lzPutLen_spec ecx edi m).1] at hn
    rw [lzPutLen]
    rcases Nat.lt_or_ge ecx 255 with hlt | hge
    · rw [Lz4.length_lenExt] at hn
      rw [if_pos hlt]
      exact hm.storeOut (show edi + 1 ≤ n by omega)
    · rw [Lz4.lenExt_of_ge hge, List.length_cons] at hn
      rw [if_neg (by omega)]
      refine ih (ecx - 255) (by omega) (hm.storeOut (show edi + 1 ≤ n by omega)) ?_
      rw [(lzPutLen_spec _ _ _).1]
      omega

/-- `LZ_Emit_Literals` of literals of the page writes up to the EDI it leaves. -/
theorem lzEmitLiterals_inBuffers {n anchor edx edi : ℕ} {m : Machine Seg} (hm : m.InBuffers n)
    (hpage : anchor + edx ≤ pageBytes) (hn : (lzEmitLiterals anchor edx edi m).1 ≤ n) :
    (lzEmitLiterals anchor edx edi m).2.InBuffers n := by
  have hcopy : ∀ (r : ℕ × Machine Seg), r.2.InBuffers n → r.1 + edx ≤ n →
      (lzCopy .src .dst edx ⟨anchor, r.1, r.2⟩).m.InBuffers n := fun r hr hle =>
    lzCopy_all _ _ _ _ hr fun j k hjk =>
      ⟨show anchor + j + k ≤ pageBytes by omega, show r.1 + j + k ≤ n by omega⟩
  unfold lzEmitLiterals at hn ⊢
  dsimp only at hn ⊢
  rw [lzCopy_edi] at hn
  refine hcopy _ ?_ hn
  split_ifs at hn ⊢ with h
  · dsimp only at hn
    exact hm.storeOut (show edi + 1 ≤ n by omega)
  · dsimp only at hn
    have hlt := hn
    rw [(lzPutLen_spec _ _ _).1] at hlt
    exact lzPutLen_inBuffers _ (hm.storeOut (show edi + 1 ≤ n by omega)) (by omega)

theorem lzcPutMatchLen_inBuffers {n token ecx edi : ℕ} {m : Machine Seg} (hm : m.InBuffers n)
    (htok : token + 1 ≤ n) (hn : (lzcPutMatchLen token ecx edi m).1 ≤ n) :
    (lzcPutMatchLen token ecx edi m).2.InBuffers n := by
  have hor : ∀ v, (lzOrToken token v m).InBuffers n := fun v =>
    Machine.InBuffers.storeOut ((m.all_read _ _ _ _).2 ⟨hm, htok⟩) htok
  unfold lzcPutMatchLen at hn ⊢
  split_ifs at hn ⊢ with h
  · exact hor _
  · exact lzPutLen_inBuffers _ (hor _) hn

theorem lzcFwd_inBuffers {n ebx esi ecx : ℕ} {m : Machine Seg} (hm : m.InBuffers n)
    (hesi : esi ≤ ebx) : (lzcFwd ebx esi ecx m).2.InBuffers n := by
  have h4096 : pageBytes = 4096 := rfl
  rw [lzcFwd]
  dsimp only
  split_ifs with h1 h2
  · exact hm
  · exact lzcFwd_inBuffers ((hm.readPage (by omega)).readPage (by omega)) hesi
  · exact (hm.readPage (by omega)).readPage (by omega)
termination_by pageBytes - 5 - (ebx + ecx)

theorem lzcBack_inBuffers {n anchor ebx esi ecx : ℕ} {m : Machine Seg} (hm : m.InBuffers n)
    (hesi : esi ≤ ebx) (hebx : ebx ≤ pageBytes) :
    (lzcBack anchor ebx esi ecx m).2.InBuffers n := by
  rw [lzcBack]
  dsimp only
  split_ifs with h1 h2 h3
  · exact hm
  · exact hm
  · exact lzcBack_inBuffers ((hm.readPage (by omega)).readPage (by omega)) (by omega) (by omega)
  · exact (hm.readPage (by omega)).readPage (by omega)
termination_by ebx - anchor

/-! ## The main loop -/

theorem lzcProbe_inBuffers {n : ℕ} {scFold : Bool} {mem : Mem Seg} {seqs : List Lz4.Seq}
    {s : Lzc} (h : LzcInv scFold mem seqs s) (hlim : s.ebx < pageBytes - 12)
    (hm : s.m.InBuffers n) : (lzcProbe scFold s).2.m.InBuffers n := by
  have h4096 : pageBytes = 4096 := rfl
  have hcand : ∀ edx, edx ≤ s.ebx → edx - 1 + 4 ≤ pageBytes := by omega
  have hsub : sub32 s.ebx 0 = s.ebx := sub32_eq (Nat.zero_le _)
  unfold lzcProbe
  dsimp only
  rw [hsub]
  split_ifs with h1 h2 h3
  · exact hm.readPage (by omega)
  · exact hm.readPage (by omega)
  all_goals
    refine ((hm.readPage (by omega)).readPage (hcand _ ?_)).readPage (by omega)
    cases hf : scFold with
    | false => exact h.behind hf _
    | true =>
      rw [hf] at h2
      simp only [true_and] at h2
      omega

/-- `lzc_emit` writes up to the `lz_op` it leaves. -/
theorem lzcEmit_inBuffers {n : ℕ} {mem : Mem Seg} {bs : List UInt8} {s : Lzc} {r : LzcMatch}
    {m : Machine Seg} (hm : m.InBuffers n) (hbs : m.mem = mem.blit .dst 0 bs)
    (hop : s.op = bs.length) (hr : MatchOk mem s.anchor r) (hn : n ≤ s.op) :
    (lzcEmit s r m).m.InBuffers (lzcEmit s r m).op := by
  have h4096 : pageBytes = 4096 := rfl
  have hend := hr.end_le
  have hanchor := hr.anchor_le
  have hlit : sub32 r.ebx s.anchor = r.ebx - s.anchor := sub32_eq hr.anchor_le
  have hlen : sub32 r.ecx 4 = r.ecx - 4 := sub32_eq hr.len_ge
  obtain ⟨hout, -⟩ := lzcEmit_spec hbs hop hr
  have hgrow : s.op + (lzEmitLiterals s.anchor (r.ebx - s.anchor) s.op m).1 + 2 ≤
      s.op + (lzcEmit s r m).op := by
    rw [(lzEmitLiterals_spec _ _ _ _).1, hout, hop]
    simp only [Lz4.encodeSeq, List.length_append, List.length_cons, Lz4.length_le16,
      length_lits_seq]
    omega
  have hstart : s.op + 1 ≤ (lzEmitLiterals s.anchor (r.ebx - s.anchor) s.op m).1 := by
    rw [(lzEmitLiterals_spec _ _ _ _).1]
    omega
  unfold lzcEmit at hgrow ⊢
  dsimp only at hgrow ⊢
  rw [hlit] at hgrow ⊢
  refine lzcPutMatchLen_inBuffers (Machine.InBuffers.storeOut ?_ ?_) (by omega) (Nat.le_refl _)
  · exact lzEmitLiterals_inBuffers (hm.mono (by omega)) (by omega) (by omega)
  · rw [Lz4.length_le16]
    omega

/-- What the bounds need round `lzc_loop` : the invariant of the round trip, where the
matches start, and no access past `lz_op`. -/
structure LzcBounds (scFold : Bool) (mem : Mem Seg) (seqs : List Lz4.Seq) (s : Lzc) : Prop
    extends LzcInv scFold mem seqs s where
  start : Lz4.StartBefore pageBytes 0 seqs
  inBuffers : s.m.InBuffers s.op

theorem lzcStart_bounds (scFold : Bool) (htab : ℕ → UInt16) (mem : Mem Seg) :
    LzcBounds scFold mem [] (lzcStart scFold htab mem) :=
  ⟨lzcStart_inv scFold htab mem, trivial,
    Machine.InBuffers.readPage (by simp [Machine.All]) (by decide)⟩

theorem lzcStep_inBuffers {scFold : Bool} {mem : Mem Seg} {seqs : List Lz4.Seq} {s s' : Lzc}
    (h : LzcBounds scFold mem seqs s) (hstep : lzcStep scFold s = .inl s') :
    s'.m.InBuffers s'.op := by
  unfold lzcStep at hstep
  split_ifs at hstep with hlim
  have hprobe := lzcProbe_inBuffers h.toLzcInv (Nat.lt_of_not_le hlim) h.inBuffers
  cases hp : lzcProbe scFold s with
  | mk o t =>
    obtain ⟨hebx, hanchor, hop, hmem, -, hcand⟩ :=
      lzcProbe_spec h.toLzcInv (Nat.lt_of_not_le hlim) hp
    rw [hp] at hstep hprobe
    rw [← hop] at hprobe
    cases o with
    | none =>
      obtain rfl := Sum.inl.inj hstep
      exact hprobe
    | some esi =>
      obtain rfl := Sum.inl.inj hstep
      obtain ⟨hok, hbmem, -, -⟩ := lzcProbe_match h.toLzcInv (Nat.lt_of_not_le hlim) hp
      have hesi : esi ≤ t.ebx := by
        rw [hebx]
        exact Nat.le_of_lt (hcand esi rfl).behind
      have hpage : t.ebx ≤ pageBytes := by
        have hle := h.ebx_le
        omega
      refine lzcEmit_inBuffers ?_ (hbmem.trans h.mem) (hop.trans h.op) hok (Nat.le_refl _)
      exact lzcBack_inBuffers (lzcFwd_inBuffers hprobe hesi) hesi hpage

/-- One round keeps the bounds. -/
theorem lzcStep_bounds {scFold : Bool} {mem : Mem Seg} {seqs : List Lz4.Seq} {s s' : Lzc}
    (h : LzcBounds scFold mem seqs s) (hstep : lzcStep scFold s = .inl s') :
    ∃ seqs', LzcBounds scFold mem seqs' s' := by
  have h4096 : pageBytes = 4096 := rfl
  have hbuf := lzcStep_inBuffers h hstep
  obtain hinv | ⟨r, hr, hlim, hinv⟩ := lzcStep_inv h.toLzcInv hstep
  · exact ⟨_, hinv, h.start, hbuf⟩
  · refine ⟨_, hinv, ?_, hbuf⟩
    have hle := h.anchor_le_limit
    have hanchor := hr.anchor_le
    have hlen : (Lz4.expand [] seqs).length = s.anchor := by
      rw [h.expand, List.length_take, length_page]
      omega
    refine (Lz4.startBefore_append _ [] _ _).2 ⟨h.start, ?_, trivial⟩
    rw [hlen, length_lits_seq]
    omega

/-- `LZ4_Compress` leaves `lzc_loop` with the bounds. -/
theorem lzcLoop_bounds (scFold : Bool) (htab : ℕ → UInt16) (mem : Mem Seg) :
    ∃ seqs, LzcBounds scFold mem seqs ((lzcLoop scFold).run (lzcStart scFold htab mem)) := by
  refine (lzcLoop scFold).run_induct (I := fun s => ∃ seqs, LzcBounds scFold mem seqs s)
    (P := fun s => ∃ seqs, LzcBounds scFold mem seqs s) (fun s s' h hstep => ?_)
    (fun s r h hstep => ?_) _ ⟨[], lzcStart_bounds scFold htab mem⟩
  · obtain ⟨seqs, hb⟩ := h
    exact lzcStep_bounds hb hstep
  · have hr : lzcStep scFold s = .inr r := hstep
    rwa [← lzcStep_leaves hr]

/-! ## The whole encoder -/

/-- At `lzc_last` the literals left are written up to the length returned. -/
theorem lz4Compress_inBuffers (scFold : Bool) (htab : ℕ → UInt16) (mem : Mem Seg) :
    (lz4Compress scFold htab mem).m.InBuffers (lz4Compress scFold htab mem).eax := by
  have h4096 : pageBytes = 4096 := rfl
  obtain ⟨seqs, h⟩ := lzcLoop_bounds scFold htab mem
  have hbuf := h.inBuffers
  have hle := h.anchor_le_limit
  unfold lz4Compress
  dsimp only
  generalize (lzcLoop scFold).run (lzcStart scFold htab mem) = s at hbuf hle ⊢
  rw [sub32_eq (by omega : s.anchor ≤ pageBytes), sub32_eq (Nat.zero_le _), Nat.sub_zero]
  refine lzEmitLiterals_inBuffers (hbuf.mono ?_) (by omega) (Nat.le_refl _)
  rw [(lzEmitLiterals_spec _ _ _ _).1]
  omega

/-- For every page, whatever is in HTab : `LZ4_Compress` only reads the page, inside its
4096 bytes, and touches its output only in the bytes it returns the number of, at most
4350; these are a block of sequences and at least five last literals that stand for the
page, with matches of 4 bytes or more that refer to bytes already out and start at least
12 bytes before the end of the page; and no other byte is changed. -/
theorem lz4Compress_bounds (scFold : Bool) (htab : ℕ → UInt16) (mem : Mem Seg) :
    let r := lz4Compress scFold htab mem
    r.m.All (Access.InPageAndBlock r.eax) ∧ r.eax ≤ 4350 ∧
      r.m.mem .src = mem .src ∧ (∀ i, r.eax ≤ i → r.m.mem .dst i = mem .dst i) ∧
      ∃ seqs lits, r.m.mem.bytes .dst 0 r.eax = Lz4.encodeSeqs seqs ++ Lz4.encodeLast lits ∧
        Lz4.expand [] seqs ++ lits = mem.page ∧ 5 ≤ lits.length ∧
        Lz4.SeqsValid 0 seqs ∧ Lz4.StartBefore pageBytes 0 seqs := by
  intro r
  obtain ⟨seqs, h⟩ := lzcLoop_bounds scFold htab mem
  obtain ⟨lits, hlits, hpage, heax, hmem⟩ := h.block
  have hle := lz4Compress_eax_le scFold htab mem
  refine ⟨lz4Compress_inBuffers scFold htab mem, Nat.le_trans hle (by decide), ?_, fun i hi => ?_,
    seqs, lits, ?_, hpage, hlits, h.valid, h.start⟩
  · rw [hmem, Mem.blit_ne _ (by decide)]
  · rw [hmem, Mem.blit_apply_of_ge]
    rwa [Nat.zero_add, ← heax]
  · rw [hmem, heax, Mem.bytes_blit]

end Inboard
