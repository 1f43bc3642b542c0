import Inboard.Lz4Decompress
import Mathlib.Logic.Function.Basic
import Mathlib.Tactic.Set

/-!
# The swap compressor's encoder

`LZ4_Compress` of SWAPCOMP.ASM, in both builds : `scFold` is SC_FOLD, the cheaper hash
and a table that is never cleared. Addresses are offsets, the page the segment `.src`
and the output `.dst`, so `lz_src` and `lz_dst0` are 0.

The table only proposes candidates. In the SC_FOLD build an entry of an earlier page may
point anywhere, and the code drops it if it is not behind `ip`; in the other build every
entry is behind `ip` because the table starts clear (`LzcInv.behind`). Every candidate is
compared byte by byte (`lzcMatch_spec`), so each round emits a sequence that
stands for the page up to the new anchor (`lzcStep_inv`), and the block decodes to the
page (`lz4_round_trip`).
-/

set_option linter.unusedSectionVars false

namespace Inboard

/-! ## Hashing and output -/

/-- `LZ_Hash` : 4 bytes to an index of HTab. -/
def lzHash (scFold : Bool) (eax : UInt32) : ℕ :=
  if scFold then
    let edx := eax >>> 10
    let eax := eax ^^^ edx
    let edx := edx >>> 10
    let eax := eax ^^^ edx
    (eax &&& 1023).toNat
  else ((eax * 0x9E3779B1) >>> 20).toNat

/-- `LZ_Put_Len` : a length remainder as a 255-run. EDI and memory after it. -/
def lzPutLen (ecx edi : ℕ) (m : Machine Seg) : ℕ × Machine Seg :=
  if ecx < 255 then (edi + 1, m.store .dst edi [UInt8.ofNat ecx])
  else lzPutLen (ecx - 255) (edi + 1) (m.store .dst edi [255])
termination_by ecx

/-- `LZ_Emit_Literals` : the token, with the literal nibble alone, and the `edx` literals
from the anchor. -/
def lzEmitLiterals (anchor edx edi : ℕ) (m : Machine Seg) : ℕ × Machine Seg :=
  let r :=
    if edx < 15 then (edi + 1, m.store .dst edi [UInt8.ofNat (edx * 16)])
    else lzPutLen (sub32 edx 15) (edi + 1) (m.store .dst edi [0xF0])
  let c := lzCopy .src .dst edx ⟨anchor, r.1, r.2⟩
  (c.edi, c.m)

/-- `or BYTE PTR [eax], cl` on the token. -/
def lzOrToken (token ml : ℕ) (m : Machine Seg) : Machine Seg :=
  (m.read .dst token 1).store .dst token [m.mem .dst token ||| UInt8.ofNat ml]

theorem lzPutLen_spec (ecx : ℕ) : ∀ (edi : ℕ) (m : Machine Seg),
    (lzPutLen ecx edi m).1 = edi + (Lz4.lenExt ecx).length ∧
      (lzPutLen ecx edi m).2.mem = m.mem.blit .dst edi (Lz4.lenExt ecx) := by
  induction ecx using Nat.strong_induction_on with
  | _ ecx ih =>
    intro edi m
    rw [lzPutLen]
    rcases Nat.lt_or_ge ecx 255 with hlt | hge
    · rw [if_pos hlt, Lz4.lenExt_of_lt hlt]
      exact ⟨rfl, rfl⟩
    · obtain ⟨hedi, hmem⟩ := ih (ecx - 255) (by omega) (edi + 1) (m.store .dst edi [255])
      rw [if_neg (by omega), Lz4.lenExt_of_ge hge]
      refine ⟨?_, ?_⟩
      · rw [hedi, List.length_cons]
        omega
      · rw [hmem, Machine.mem_store, Mem.blit_cons _ _ _ _ (Lz4.lenExt _)]

/-- What `LZ_Emit_Literals` writes is the head of a sequence. -/
theorem lzEmitLiterals_spec (anchor edx edi : ℕ) (m : Machine Seg) :
    (lzEmitLiterals anchor edx edi m).1 = edi + 1 + (Lz4.nibbleExt edx).length + edx ∧
      (lzEmitLiterals anchor edx edi m).2.mem = m.mem.blit .dst edi
        (Lz4.token (Lz4.nibble edx) 0 :: Lz4.nibbleExt edx ++ m.mem.bytes .src anchor edx) := by
  have hne : Seg.src ≠ Seg.dst := by decide
  rcases Nat.lt_or_ge edx 15 with hlt | hge
  · have htok : UInt8.ofNat (edx * 16) = Lz4.token (Lz4.nibble edx) 0 := by
      rw [Lz4.token, Lz4.nibble, Nat.min_eq_left (by omega), Nat.add_zero, Nat.mul_comm]
    have hext : Lz4.nibbleExt edx = [] := if_pos hlt
    simp only [lzEmitLiterals, if_pos hlt, lzCopy_edi, lzCopy_mem _ _ _ _ hne, hext, htok,
      Machine.mem_store, Mem.bytes_blit_ne _ hne]
    exact ⟨rfl, (Mem.blit_cons _ _ _ _ _).symm⟩
  · have hext : Lz4.nibbleExt edx = Lz4.lenExt (edx - 15) := if_neg (by omega)
    have htok : Lz4.token (Lz4.nibble edx) 0 = 0xF0 := by
      rw [Lz4.nibble, Nat.min_eq_right hge]
      rfl
    obtain ⟨hedi, hmem⟩ := lzPutLen_spec (edx - 15) (edi + 1) (m.store .dst edi [0xF0])
    simp only [lzEmitLiterals, if_neg (by omega : ¬ edx < 15), sub32_eq hge, lzCopy_edi,
      lzCopy_mem _ _ _ _ hne, hedi, hmem, hext, htok, Machine.mem_store, Mem.bytes_blit_ne _ hne]
    refine ⟨trivial, ?_⟩
    rw [List.cons_append, Mem.blit_cons _ _ _ _ (_ ++ _), ← Mem.blit_append]

theorem lzOrToken_mem {hi lo token : ℕ} {mem : Mem Seg} {bs : List UInt8} {m : Machine Seg}
    (hhi : hi ≤ 15) (hlo : lo ≤ 15)
    (hm : m.mem = mem.blit .dst token (Lz4.token hi 0 :: bs)) :
    (lzOrToken token lo m).mem = mem.blit .dst token (Lz4.token hi lo :: bs) := by
  have hor : ∀ a b : Fin 16, Lz4.token a 0 ||| UInt8.ofNat b = Lz4.token a b := by decide
  have hbyte : m.mem .dst token = Lz4.token hi 0 := by
    have hget : mem.blit .dst token (Lz4.token hi 0 :: bs) .dst (token + 0) = _ :=
      mem.blit_apply_add (by simp)
    rw [hm]
    simpa using hget
  have h := hor ⟨hi, by omega⟩ ⟨lo, by omega⟩
  simp only at h
  rw [lzOrToken, Machine.mem_store, Machine.mem_read, hbyte, h, hm, Mem.blit_cons_head]

/-! ## The match -/

/-- `lzc_fwd` : extend a match of `ecx` bytes up to `lz_matchlimit`. -/
def lzcFwd (ebx esi ecx : ℕ) (m : Machine Seg) : ℕ × Machine Seg :=
  if pageBytes - 5 ≤ ebx + ecx then (ecx, m)
  else
    let m := (m.read .src (esi + ecx) 1).read .src (ebx + ecx) 1
    if m.mem .src (esi + ecx) = m.mem .src (ebx + ecx) then lzcFwd ebx esi (ecx + 1) m
    else (ecx, m)
termination_by pageBytes - 5 - (ebx + ecx)

/-- A match : where it starts, its candidate and its length. -/
structure LzcMatch where
  ebx : ℕ
  esi : ℕ
  ecx : ℕ

/-- `lzc_back` : extend a match backward, as far as the anchor or the page's start. -/
def lzcBack (anchor : ℕ) (ebx esi ecx : ℕ) (m : Machine Seg) : LzcMatch × Machine Seg :=
  if ebx ≤ anchor then (⟨ebx, esi, ecx⟩, m)
  else if esi ≤ 0 then (⟨ebx, esi, ecx⟩, m)
  else
    let m := (m.read .src (ebx - 1) 1).read .src (esi - 1) 1
    if m.mem .src (ebx - 1) = m.mem .src (esi - 1) then
      lzcBack anchor (ebx - 1) (esi - 1) (ecx + 1) m
    else (⟨ebx, esi, ecx⟩, m)
termination_by ebx - anchor

theorem lzcFwd_ge (ebx esi ecx : ℕ) (m : Machine Seg) : ecx ≤ (lzcFwd ebx esi ecx m).1 := by
  rw [lzcFwd]
  dsimp only
  split_ifs
  · exact Nat.le_refl ecx
  · exact Nat.le_of_succ_le (lzcFwd_ge ebx esi (ecx + 1) _)
  · exact Nat.le_refl ecx
termination_by pageBytes - 5 - (ebx + ecx)

/-- Going back moves the start, not the end. -/
theorem lzcBack_end (anchor ebx esi ecx : ℕ) (m : Machine Seg) :
    (lzcBack anchor ebx esi ecx m).1.ebx + (lzcBack anchor ebx esi ecx m).1.ecx = ebx + ecx := by
  rw [lzcBack]
  dsimp only
  split_ifs with h1 h2
  · rfl
  · rfl
  · rw [lzcBack_end]
    omega
  · rfl
termination_by ebx - anchor

/-- Going back only moves the start down. -/
theorem lzcBack_le (anchor ebx esi ecx : ℕ) (m : Machine Seg) :
    (lzcBack anchor ebx esi ecx m).1.ebx ≤ ebx := by
  rw [lzcBack]
  dsimp only
  split_ifs with h1 h2 h3
  · exact Nat.le_refl ebx
  · exact Nat.le_refl ebx
  · exact Nat.le_trans (lzcBack_le anchor (ebx - 1) (esi - 1) (ecx + 1) _) (Nat.sub_le ebx 1)
  · exact Nat.le_refl ebx
termination_by ebx - anchor

/-- The bytes of a match were compared, it is behind `ebx`, and it stays between the
anchor and the last five bytes. -/
structure MatchOk (mem : Mem Seg) (anchor : ℕ) (r : LzcMatch) : Prop where
  anchor_le : anchor ≤ r.ebx
  behind : r.esi < r.ebx
  len_ge : 4 ≤ r.ecx
  end_le : r.ebx + r.ecx ≤ pageBytes - 5
  same : ∀ k < r.ecx, mem .src (r.esi + k) = mem .src (r.ebx + k)

theorem MatchOk.congr {mem mem' : Mem Seg} {anchor : ℕ} {r : LzcMatch}
    (h : MatchOk mem anchor r) (hsrc : mem .src = mem' .src) : MatchOk mem' anchor r :=
  ⟨h.anchor_le, h.behind, h.len_ge, h.end_le, fun k hk => by
    rw [← hsrc]
    exact h.same k hk⟩

theorem lzcFwd_ok {anchor ebx esi ecx : ℕ} {m : Machine Seg}
    (h : MatchOk m.mem anchor ⟨ebx, esi, ecx⟩) :
    MatchOk m.mem anchor ⟨ebx, esi, (lzcFwd ebx esi ecx m).1⟩ ∧
      (lzcFwd ebx esi ecx m).2.mem = m.mem := by
  rw [lzcFwd]
  dsimp only
  split_ifs with h1 h2
  · exact ⟨h, rfl⟩
  · have hlt : ebx + ecx < pageBytes - 5 := Nat.lt_of_not_le h1
    refine lzcFwd_ok (m := (m.read .src (esi + ecx) 1).read .src (ebx + ecx) 1)
      ⟨h.anchor_le, h.behind, Nat.le_succ_of_le h.len_ge, hlt, fun k hk => ?_⟩
    rcases Nat.lt_succ_iff_lt_or_eq.1 hk with hk | rfl
    · exact h.same k hk
    · exact h2
  · exact ⟨h, rfl⟩
termination_by pageBytes - 5 - (ebx + ecx)

theorem lzcBack_ok {anchor ebx esi ecx : ℕ} {m : Machine Seg}
    (h : MatchOk m.mem anchor ⟨ebx, esi, ecx⟩) :
    MatchOk m.mem anchor (lzcBack anchor ebx esi ecx m).1 ∧
      (lzcBack anchor ebx esi ecx m).2.mem = m.mem := by
  rw [lzcBack]
  dsimp only
  split_ifs with h1 h2 h3
  · exact ⟨h, rfl⟩
  · exact ⟨h, rfl⟩
  · have hend : ebx + ecx ≤ pageBytes - 5 := h.end_le
    have hbehind : esi < ebx := h.behind
    refine lzcBack_ok (m := (m.read .src (ebx - 1) 1).read .src (esi - 1) 1)
      ⟨Nat.le_sub_one_of_lt (Nat.lt_of_not_le h1), by dsimp only; omega,
        Nat.le_succ_of_le h.len_ge, by dsimp only; omega, fun k hk => ?_⟩
    cases k with
    | zero => exact h3.symm
    | succ k =>
      have hsame := h.same k (Nat.lt_of_succ_lt_succ hk)
      dsimp only at hsame ⊢
      rwa [show esi - 1 + (k + 1) = esi + k by omega, show ebx - 1 + (k + 1) = ebx + k by omega]
  · exact ⟨h, rfl⟩
termination_by ebx - anchor

/-! ## The main loop -/

/-- The registers and variables kept round `lzc_loop`. -/
structure Lzc where
  htab : ℕ → UInt16
  /-- EBX, the position looked at. -/
  ebx : ℕ
  /-- `lz_anchor`. -/
  anchor : ℕ
  /-- `lz_op`. -/
  op : ℕ
  m : Machine Seg

/-- From `lzc_loop` to the compare : look the position up and put it in the table. The
candidate, if its four bytes are the same. -/
def lzcProbe (scFold : Bool) (s : Lzc) : Option ℕ × Lzc :=
  let eax := lzHash scFold (UInt32.ofNat (s.m.mem.dword .src s.ebx))
  let m := s.m.read .src s.ebx 4
  let edx := (s.htab eax).toNat
  let ecx := sub32 s.ebx 0 + 1
  let s := { s with htab := Function.update s.htab eax (UInt16.ofNat ecx), m := m }
  if edx = 0 then (none, s)
  else if scFold ∧ ecx ≤ edx then (none, s)
  else
    let esi := edx - 1
    let s := { s with m := (s.m.read .src esi 4).read .src s.ebx 4 }
    if s.m.mem.dword .src esi = s.m.mem.dword .src s.ebx then (some esi, s) else (none, s)

/-- The match length `ecx`, less 4, in the token and after it. -/
def lzcPutMatchLen (token ecx edi : ℕ) (m : Machine Seg) : ℕ × Machine Seg :=
  if ecx < 15 then (edi, lzOrToken token ecx m)
  else lzPutLen (sub32 ecx 15) edi (lzOrToken token 15 m)

/-- `lzc_emit` : one sequence, and on from the end of its match. -/
def lzcEmit (s : Lzc) (r : LzcMatch) (m : Machine Seg) : Lzc :=
  let lit := lzEmitLiterals s.anchor (sub32 r.ebx s.anchor) s.op m
  let m := lit.2.store .dst lit.1 (Lz4.le16 (sub32 r.ebx r.esi))
  let ml := lzcPutMatchLen s.op (sub32 r.ecx 4) (lit.1 + 2) m
  { s with ebx := r.ebx + r.ecx, anchor := r.ebx + r.ecx, op := ml.1, m := ml.2 }

/-- One round of `lzc_loop`; it leaves at `lzc_last`. -/
def lzcStep (scFold : Bool) (s : Lzc) : Lzc ⊕ Lzc :=
  if pageBytes - 12 ≤ s.ebx then .inr s
  else
    match lzcProbe scFold s with
    | (none, s) => .inl { s with ebx := s.ebx + 1 }
    | (some esi, s) =>
      let fwd := lzcFwd s.ebx esi 4 s.m
      let back := lzcBack s.anchor s.ebx esi fwd.1 fwd.2
      .inl (lzcEmit s back.1 back.2)

theorem lzcProbe_ebx (scFold : Bool) (s : Lzc) : (lzcProbe scFold s).2.ebx = s.ebx := by
  unfold lzcProbe
  dsimp only
  split_ifs <;> rfl

theorem lzcStep_decreases {scFold : Bool} {s s' : Lzc} (h : lzcStep scFold s = .inl s') :
    pageBytes - s'.ebx < pageBytes - s.ebx := by
  have hebx := lzcProbe_ebx scFold s
  unfold lzcStep at h
  split_ifs at h with h1
  cases hp : lzcProbe scFold s with
  | mk o t =>
    rw [hp] at h hebx
    dsimp only at hebx
    cases o with
    | none =>
      obtain rfl := Sum.inl.inj h
      dsimp only
      omega
    | some esi =>
      obtain rfl := Sum.inl.inj h
      have hfwd := lzcFwd_ge t.ebx esi 4 t.m
      have hback := lzcBack_end t.anchor t.ebx esi (lzcFwd t.ebx esi 4 t.m).1
        (lzcFwd t.ebx esi 4 t.m).2
      dsimp only [lzcEmit]
      omega

/-- `lzc_loop`. -/
def lzcLoop (scFold : Bool) : Loop Lzc Lzc where
  step := lzcStep scFold
  measure s := pageBytes - s.ebx
  decreases _ _ h := lzcStep_decreases h

/-- What `LZ4_Compress` returns and leaves. -/
structure LzcResult where
  eax : ℕ
  htab : ℕ → UInt16
  m : Machine Seg

/-- HTab at the start : cleared, unless SC_FOLD, with the page's first four bytes in. -/
def lzcStart (scFold : Bool) (htab : ℕ → UInt16) (mem : Mem Seg) : Lzc where
  htab := Function.update (if scFold then htab else fun _ => 0)
    (lzHash scFold (UInt32.ofNat (mem.dword .src 0))) 1
  ebx := 1
  anchor := 0
  op := 0
  m := (Machine.mk mem []).read .src 0 4

/-- `LZ4_Compress` of the page at ESI to EDI, the literals of `lzc_last` at its end. -/
def lz4Compress (scFold : Bool) (htab : ℕ → UInt16) (mem : Mem Seg) : LzcResult :=
  let s := (lzcLoop scFold).run (lzcStart scFold htab mem)
  let lit := lzEmitLiterals s.anchor (sub32 pageBytes s.anchor) s.op s.m
  ⟨sub32 lit.1 0, s.htab, lit.2⟩

/-! ### What it writes -/

/-- The page a routine is given. -/
def Mem.page (mem : Mem Seg) : List UInt8 := mem.bytes .src 0 pageBytes

@[simp] theorem length_page (mem : Mem Seg) : mem.page.length = pageBytes :=
  mem.length_bytes .src 0 pageBytes

theorem getElem_page (mem : Mem Seg) {i : ℕ} (h : i < mem.page.length) :
    mem.page[i] = mem .src i :=
  (mem.getElem_bytes .src 0 pageBytes i h).trans (by rw [Nat.zero_add])

theorem getD_page (mem : Mem Seg) {i : ℕ} (h : i < pageBytes) :
    mem.page.getD i 0 = mem .src i := by
  have hi : i < mem.page.length := by rwa [length_page]
  rw [List.getD_eq_getElem?_getD, List.getElem?_eq_getElem hi, Option.getD_some, getElem_page]

/-- The sequences out at `lzc_loop` stand for the page up to the anchor, and in the build
that clears it the table only names positions before EBX. -/
structure LzcInv (scFold : Bool) (mem : Mem Seg) (seqs : List Lz4.Seq) (s : Lzc) : Prop where
  anchor_le : s.anchor ≤ s.ebx
  anchor_le_limit : s.anchor ≤ pageBytes - 5
  ebx_le : s.ebx ≤ pageBytes - 5
  valid : Lz4.SeqsValid 0 seqs
  expand : Lz4.expand [] seqs = mem.page.take s.anchor
  op : s.op = (Lz4.encodeSeqs seqs).length
  mem : s.m.mem = mem.blit .dst 0 (Lz4.encodeSeqs seqs)
  behind : scFold = false → ∀ i, (s.htab i).toNat ≤ s.ebx

theorem LzcInv.src {scFold : Bool} {mem : Mem Seg} {seqs : List Lz4.Seq} {s : Lzc}
    (h : LzcInv scFold mem seqs s) : s.m.mem .src = mem .src := by
  rw [h.mem, Mem.blit_ne _ (by decide)]

/-- The sequence a match emits. -/
def LzcMatch.seq (mem : Mem Seg) (anchor : ℕ) (r : LzcMatch) : Lz4.Seq :=
  ⟨mem.bytes .src anchor (r.ebx - anchor), r.ebx - r.esi, r.ecx⟩

theorem length_lits_seq (mem : Mem Seg) (anchor : ℕ) (r : LzcMatch) :
    (r.seq mem anchor).lits.length = r.ebx - anchor :=
  mem.length_bytes _ _ _

/-- With the rest of a sequence written, its match length completes it. -/
theorem lzcPutMatchLen_spec {q : Lz4.Seq} {mem : Mem Seg} {op edi : ℕ} {m : Machine Seg}
    (hm : m.mem = mem.blit .dst op (Lz4.token (Lz4.nibble q.lits.length) 0 ::
      (Lz4.nibbleExt q.lits.length ++ q.lits ++ Lz4.le16 q.off)))
    (hedi : edi = op + (1 + (Lz4.nibbleExt q.lits.length).length + q.lits.length + 2)) :
    (lzcPutMatchLen op (q.len - 4) edi m).1 = op + (Lz4.encodeSeq q).length ∧
      (lzcPutMatchLen op (q.len - 4) edi m).2.mem = mem.blit .dst op (Lz4.encodeSeq q) := by
  unfold lzcPutMatchLen Lz4.encodeSeq
  rcases Nat.lt_or_ge (q.len - 4) 15 with hlt | hge
  · have hnib : Lz4.nibble (q.len - 4) = q.len - 4 := Nat.min_eq_left (Nat.le_of_lt hlt)
    have hext : Lz4.nibbleExt (q.len - 4) = [] := if_pos hlt
    rw [if_pos hlt, hnib, hext, List.append_nil]
    refine ⟨?_, lzOrToken_mem (Lz4.nibble_le _) (Nat.le_of_lt hlt) hm⟩
    simp only [hedi, List.length_append, List.length_cons, Lz4.length_le16]
    omega
  · have hnib : Lz4.nibble (q.len - 4) = 15 := Nat.min_eq_right hge
    have hext : Lz4.nibbleExt (q.len - 4) = Lz4.lenExt (q.len - 4 - 15) :=
      if_neg (Nat.not_lt.2 hge)
    have hor := lzOrToken_mem (Lz4.nibble_le q.lits.length) (Nat.le_refl 15) hm
    have hat : edi = op + (Lz4.token (Lz4.nibble q.lits.length) 15 ::
        (Lz4.nibbleExt q.lits.length ++ q.lits ++ Lz4.le16 q.off)).length := by
      simp only [hedi, List.length_append, List.length_cons, Lz4.length_le16]
      omega
    obtain ⟨hput, hmem⟩ := lzPutLen_spec (q.len - 4 - 15) edi (lzOrToken op 15 m)
    rw [if_neg (Nat.not_lt.2 hge), sub32_eq hge, hnib, hext]
    refine ⟨?_, ?_⟩
    · rw [hput]
      simp only [hedi, List.length_append, List.length_cons, Lz4.length_le16]
      omega
    · rw [hmem, hor, hat, Mem.blit_append]
      simp only [List.cons_append]

/-- `lzc_emit` writes the bytes of the sequence of its match. -/
theorem lzcEmit_spec {mem : Mem Seg} {bs : List UInt8} {s : Lzc} {r : LzcMatch}
    {m : Machine Seg} (hm : m.mem = mem.blit .dst 0 bs) (hop : s.op = bs.length)
    (hr : MatchOk mem s.anchor r) :
    (lzcEmit s r m).op = (bs ++ Lz4.encodeSeq (r.seq mem s.anchor)).length ∧
      (lzcEmit s r m).m.mem = mem.blit .dst 0 (bs ++ Lz4.encodeSeq (r.seq mem s.anchor)) := by
  have h4096 : pageBytes = 4096 := rfl
  have hend := hr.end_le
  have hlit : sub32 r.ebx s.anchor = r.ebx - s.anchor := sub32_eq hr.anchor_le
  have hoff : sub32 r.ebx r.esi = r.ebx - r.esi := sub32_eq (Nat.le_of_lt hr.behind)
  have hlen : sub32 r.ecx 4 = r.ecx - 4 := sub32_eq hr.len_ge
  have hlits : m.mem.bytes .src s.anchor (r.ebx - s.anchor) = (r.seq mem s.anchor).lits := by
    rw [hm, Mem.bytes_blit_ne _ (by decide)]
    rfl
  have hql := length_lits_seq mem s.anchor r
  obtain ⟨hedi, hemit⟩ := lzEmitLiterals_spec s.anchor (r.ebx - s.anchor) s.op m
  rw [hlits] at hemit
  have hstore : (((lzEmitLiterals s.anchor (r.ebx - s.anchor) s.op m).2).store .dst
      (lzEmitLiterals s.anchor (r.ebx - s.anchor) s.op m).1 (Lz4.le16 (r.ebx - r.esi))).mem =
      m.mem.blit .dst s.op (Lz4.token (Lz4.nibble (r.seq mem s.anchor).lits.length) 0 ::
        (Lz4.nibbleExt (r.seq mem s.anchor).lits.length ++ (r.seq mem s.anchor).lits ++
          Lz4.le16 (r.seq mem s.anchor).off)) := by
    have hat : s.op + 1 + (Lz4.nibbleExt (r.ebx - s.anchor)).length + (r.ebx - s.anchor) =
        s.op + (Lz4.token (Lz4.nibble (r.ebx - s.anchor)) 0 ::
          Lz4.nibbleExt (r.ebx - s.anchor) ++ (r.seq mem s.anchor).lits).length := by
      simp only [hql, List.length_append, List.length_cons]
      omega
    rw [Machine.mem_store, hemit, hedi, hat, Mem.blit_append, hql]
    simp only [List.cons_append]
    rfl
  have hat : (lzEmitLiterals s.anchor (r.ebx - s.anchor) s.op m).1 + 2 =
      s.op + (1 + (Lz4.nibbleExt (r.seq mem s.anchor).lits.length).length +
        (r.seq mem s.anchor).lits.length + 2) := by
    rw [hedi, hql]
    omega
  obtain ⟨hop', hmem'⟩ := lzcPutMatchLen_spec hstore hat
  have hseq : m.mem.blit .dst s.op (Lz4.encodeSeq (r.seq mem s.anchor)) =
      mem.blit .dst 0 (bs ++ Lz4.encodeSeq (r.seq mem s.anchor)) := by
    rw [hm, hop, ← Mem.blit_append, Nat.zero_add]
  unfold lzcEmit
  dsimp only
  rw [hlit, hoff, hlen, ← hseq, List.length_append, ← hop]
  exact ⟨hop', hmem'⟩

/-- What the look-up keeps, and what a candidate it gives is. -/
theorem lzcProbe_spec {scFold : Bool} {mem : Mem Seg} {seqs : List Lz4.Seq} {s : Lzc}
    (h : LzcInv scFold mem seqs s) (hlim : s.ebx < pageBytes - 12) {o : Option ℕ} {t : Lzc}
    (hp : lzcProbe scFold s = (o, t)) :
    t.ebx = s.ebx ∧ t.anchor = s.anchor ∧ t.op = s.op ∧ t.m.mem = s.m.mem ∧
      (scFold = false → ∀ i, (t.htab i).toNat ≤ s.ebx + 1) ∧
      ∀ esi, o = some esi → MatchOk mem s.anchor ⟨s.ebx, esi, 4⟩ := by
  have h4096 : pageBytes = 4096 := rfl
  have hsub : sub32 s.ebx 0 = s.ebx := sub32_eq (Nat.zero_le _)
  have hnew : (UInt16.ofNat (s.ebx + 1)).toNat = s.ebx + 1 := by
    rw [UInt16.toNat_ofNat']
    omega
  unfold lzcProbe at hp
  dsimp only at hp
  rw [hsub] at hp
  set eax := lzHash scFold (UInt32.ofNat (s.m.mem.dword .src s.ebx)) with heax
  have htab : scFold = false →
      ∀ i, (Function.update s.htab eax (UInt16.ofNat (s.ebx + 1)) i).toNat ≤ s.ebx + 1 := by
    intro hf i
    by_cases hi : i = eax
    · exact Nat.le_of_eq (by rw [hi, Function.update_self, hnew])
    · rw [Function.update_of_ne hi]
      exact Nat.le_succ_of_le (h.behind hf i)
  split_ifs at hp with h1 h2 h3
  · obtain ⟨rfl, rfl⟩ := Prod.mk.inj hp
    exact ⟨rfl, rfl, rfl, rfl, htab, fun esi he => by simp at he⟩
  · obtain ⟨rfl, rfl⟩ := Prod.mk.inj hp
    exact ⟨rfl, rfl, rfl, rfl, htab, fun esi he => by simp at he⟩
  · obtain ⟨rfl, rfl⟩ := Prod.mk.inj hp
    refine ⟨rfl, rfl, rfl, rfl, htab, fun esi he => ?_⟩
    obtain rfl := Option.some.inj he
    have hbehind : (s.htab eax).toNat ≤ s.ebx := by
      cases hf : scFold with
      | false => exact h.behind hf eax
      | true =>
        rw [hf] at h2
        simp only [true_and] at h2
        omega
    refine ⟨h.anchor_le, ?_, Nat.le_refl 4, ?_, fun k hk => ?_⟩
    · dsimp only
      omega
    · dsimp only
      omega
    · have hsame := Mem.eq_of_dword_eq s.m.mem h3 k hk
      rwa [h.src] at hsame
  · obtain ⟨rfl, rfl⟩ := Prod.mk.inj hp
    exact ⟨rfl, rfl, rfl, rfl, htab, fun esi he => by simp at he⟩

/-- A sequence a match emits is one the format can carry, and stands for the page from
the anchor to the end of the match. -/
theorem MatchOk.seq {mem : Mem Seg} {anchor : ℕ} {r : LzcMatch} (h : MatchOk mem anchor r) :
    (r.seq mem anchor).Valid anchor ∧
      (r.seq mem anchor).expand (mem.page.take anchor) = mem.page.take (r.ebx + r.ecx) := by
  have h4096 : pageBytes = 4096 := rfl
  have hbehind := h.behind
  have hanchor := h.anchor_le
  have hend := h.end_le
  have hlen := length_lits_seq mem anchor r
  refine ⟨⟨?_, ?_, ?_, h.len_ge⟩, ?_⟩
  · dsimp only [LzcMatch.seq]
    omega
  · dsimp only [LzcMatch.seq]
    omega
  · rw [hlen]
    dsimp only [LzcMatch.seq]
    omega
  · have hlits : mem.page.take anchor ++ (r.seq mem anchor).lits = mem.page.take r.ebx := by
      have hsplit : mem.page.take r.ebx = mem.bytes .src 0 r.ebx :=
        mem.take_bytes .src 0 (by omega)
      have hfirst : mem.page.take anchor = mem.bytes .src 0 anchor :=
        mem.take_bytes .src 0 (by omega)
      rw [hsplit, hfirst, ← Nat.add_sub_cancel' hanchor, Mem.bytes_add, Nat.zero_add]
      rfl
    rw [Lz4.Seq.expand, hlits]
    refine Lz4.copyMatch_take mem.page ?_ ?_ ?_ fun k hk => ?_
    · dsimp only [LzcMatch.seq]
      omega
    · exact Nat.sub_le _ _
    · dsimp only [LzcMatch.seq]
      rw [length_page]
      omega
    · have hback : r.ebx - (r.ebx - r.esi) + k = r.esi + k := by omega
      have hk' : k < r.ecx := hk
      dsimp only [LzcMatch.seq]
      rw [hback, getD_page mem (by omega), getD_page mem (by omega)]
      exact h.same k hk

theorem lzcStep_leaves {scFold : Bool} {s r : Lzc} (h : lzcStep scFold s = .inr r) : s = r := by
  unfold lzcStep at h
  split_ifs at h with hlim
  · exact Sum.inr.inj h
  · cases hp : lzcProbe scFold s with
    | mk o t =>
      rw [hp] at h
      cases o <;> simp at h

/-- The match a candidate is extended to. -/
theorem lzcProbe_match {scFold : Bool} {mem : Mem Seg} {seqs : List Lz4.Seq} {s t : Lzc}
    {esi : ℕ} (h : LzcInv scFold mem seqs s) (hlim : s.ebx < pageBytes - 12)
    (hp : lzcProbe scFold s = (some esi, t)) :
    let fwd := lzcFwd t.ebx esi 4 t.m
    let back := lzcBack t.anchor t.ebx esi fwd.1 fwd.2
    MatchOk mem t.anchor back.1 ∧ back.2.mem = s.m.mem ∧ back.1.ebx ≤ s.ebx ∧
      s.ebx < back.1.ebx + back.1.ecx := by
  intro fwd back
  obtain ⟨hebx, hanchor, -, hmem, -, hcand⟩ := lzcProbe_spec h hlim hp
  have hsrc : t.m.mem .src = mem .src := by rw [hmem, h.src]
  have hmatch : MatchOk t.m.mem t.anchor ⟨t.ebx, esi, 4⟩ := by
    rw [hebx, hanchor]
    exact (hcand esi rfl).congr hsrc.symm
  obtain ⟨hfwd, hfmem⟩ := lzcFwd_ok hmatch
  rw [← hfmem] at hfwd
  obtain ⟨hback, hbmem⟩ := lzcBack_ok hfwd
  have hsum : back.1.ebx + back.1.ecx = t.ebx + fwd.1 := lzcBack_end t.anchor t.ebx esi fwd.1 fwd.2
  have hfge : 4 ≤ fwd.1 := lzcFwd_ge t.ebx esi 4 t.m
  have hble : back.1.ebx ≤ t.ebx := lzcBack_le t.anchor t.ebx esi fwd.1 fwd.2
  refine ⟨hback.congr (by rw [hfmem, hsrc]), ?_, by omega, by omega⟩
  rw [hbmem, hfmem, hmem]

/-- One round of `lzc_loop` keeps the invariant, with the sequence it emitted, if any. -/
theorem lzcStep_inv {scFold : Bool} {mem : Mem Seg} {seqs : List Lz4.Seq} {s s' : Lzc}
    (h : LzcInv scFold mem seqs s) (hstep : lzcStep scFold s = .inl s') :
    LzcInv scFold mem seqs s' ∨ ∃ r, MatchOk mem s.anchor r ∧ r.ebx < pageBytes - 12 ∧
      LzcInv scFold mem (seqs ++ [r.seq mem s.anchor]) s' := by
  have h4096 : pageBytes = 4096 := rfl
  unfold lzcStep at hstep
  split_ifs at hstep with hlim
  cases hp : lzcProbe scFold s with
  | mk o t =>
    obtain ⟨hebx, hanchor, hop, hmem, htab, hcand⟩ := lzcProbe_spec h (Nat.lt_of_not_le hlim) hp
    rw [hp] at hstep
    have hle := h.anchor_le
    cases o with
    | none =>
      obtain rfl := Sum.inl.inj hstep
      refine .inl ⟨?_, ?_, ?_, h.valid, ?_, ?_, ?_, ?_⟩
      · dsimp only
        omega
      · dsimp only
        rw [hanchor]
        exact h.anchor_le_limit
      · dsimp only
        omega
      · rw [hanchor]
        exact h.expand
      · rw [hop]
        exact h.op
      · rw [hmem]
        exact h.mem
      · dsimp only
        rw [hebx]
        exact htab
    | some esi =>
      obtain rfl := Sum.inl.inj hstep
      obtain ⟨hok, hbmem, hble, hge⟩ := lzcProbe_match h (Nat.lt_of_not_le hlim) hp
      generalize lzcFwd t.ebx esi 4 t.m = fwd at *
      generalize lzcBack t.anchor t.ebx esi fwd.1 fwd.2 = back at *
      have hbm : back.2.mem = mem.blit .dst 0 (Lz4.encodeSeqs seqs) := by rw [hbmem, h.mem]
      obtain ⟨hop', hmem'⟩ := lzcEmit_spec hbm (hop.trans h.op) hok
      obtain ⟨hvalid, hexp⟩ := hok.seq
      have hend : back.1.ebx + back.1.ecx ≤ pageBytes - 5 := hok.end_le
      have hlen : (Lz4.expand [] seqs).length = t.anchor := by
        have hal := h.anchor_le_limit
        rw [h.expand, List.length_take, length_page, hanchor]
        omega
      rw [← hanchor]
      refine .inr ⟨back.1, hok, by omega, Nat.le_refl _, hend, hend, ?_, ?_, ?_, ?_, ?_⟩
      · refine (Lz4.seqsValid_append [] _ _).2 ⟨h.valid, ?_, trivial⟩
        rwa [hlen]
      · rw [Lz4.expand_append, h.expand, ← hanchor]
        exact hexp
      · rw [Lz4.encodeSeqs_append, hop']
        simp [Lz4.encodeSeqs]
      · rw [Lz4.encodeSeqs_append, hmem']
        simp [Lz4.encodeSeqs]
      · intro hf i
        exact Nat.le_trans (htab hf i) hge

theorem lzcStart_inv (scFold : Bool) (htab : ℕ → UInt16) (mem : Mem Seg) :
    LzcInv scFold mem [] (lzcStart scFold htab mem) := by
  refine ⟨Nat.zero_le _, Nat.zero_le _, ?_, trivial, rfl, rfl, ?_, ?_⟩
  · exact (by decide : 1 ≤ pageBytes - 5)
  · simp [lzcStart, Lz4.encodeSeqs]
  · intro hf i
    subst hf
    by_cases hi : i = lzHash false (UInt32.ofNat (mem.dword .src 0))
    · simp [lzcStart, hi]
    · simp [lzcStart, Function.update_of_ne hi]

/-- Leaving `lzc_loop` with sequences out, at least five literals are left, and
`LZ4_Compress` writes and counts the block of both. -/
theorem LzcInv.block {scFold : Bool} {htab : ℕ → UInt16} {mem : Mem Seg} {seqs : List Lz4.Seq}
    (h : LzcInv scFold mem seqs ((lzcLoop scFold).run (lzcStart scFold htab mem))) :
    ∃ lits, 5 ≤ lits.length ∧ Lz4.expand [] seqs ++ lits = mem.page ∧
      (lz4Compress scFold htab mem).eax = (Lz4.encodeSeqs seqs ++ Lz4.encodeLast lits).length ∧
      (lz4Compress scFold htab mem).m.mem =
        mem.blit .dst 0 (Lz4.encodeSeqs seqs ++ Lz4.encodeLast lits) := by
  have h4096 : pageBytes = 4096 := rfl
  unfold lz4Compress
  dsimp only
  generalize (lzcLoop scFold).run (lzcStart scFold htab mem) = s at h ⊢
  have hle := h.anchor_le_limit
  obtain ⟨hedi, hmem⟩ := lzEmitLiterals_spec s.anchor (pageBytes - s.anchor) s.op s.m
  have hlits : s.m.mem.bytes .src s.anchor (pageBytes - s.anchor) =
      mem.bytes .src s.anchor (pageBytes - s.anchor) :=
    Mem.bytes_congr fun i _ => by rw [h.src]
  rw [hlits] at hmem
  have hlast : Lz4.encodeLast (mem.bytes .src s.anchor (pageBytes - s.anchor)) =
      Lz4.token (Lz4.nibble (pageBytes - s.anchor)) 0 :: Lz4.nibbleExt (pageBytes - s.anchor) ++
        mem.bytes .src s.anchor (pageBytes - s.anchor) := by
    rw [Lz4.encodeLast, Mem.length_bytes]
  refine ⟨mem.bytes .src s.anchor (pageBytes - s.anchor), ?_, ?_, ?_, ?_⟩
  · rw [Mem.length_bytes]
    omega
  · have hfirst : mem.page.take s.anchor = mem.bytes .src 0 s.anchor :=
      mem.take_bytes .src 0 (by omega)
    have hsplit : s.anchor + (pageBytes - s.anchor) = pageBytes := by omega
    rw [h.expand, hfirst, Mem.page, ← hsplit, Mem.bytes_add, hsplit, Nat.zero_add]
  · rw [sub32_eq (by omega : s.anchor ≤ pageBytes), sub32_eq (Nat.zero_le _), hedi, h.op, hlast]
    simp only [List.length_append, List.length_cons, Mem.length_bytes]
    omega
  · rw [sub32_eq (by omega : s.anchor ≤ pageBytes), hmem, h.mem, h.op, hlast]
    have happ := mem.blit_append .dst 0 (Lz4.encodeSeqs seqs)
      (Lz4.token (Lz4.nibble (pageBytes - s.anchor)) 0 :: Lz4.nibbleExt (pageBytes - s.anchor) ++
        mem.bytes .src s.anchor (pageBytes - s.anchor))
    rwa [Nat.zero_add] at happ

/-- `LZ4_Compress` writes the bytes of sequences and last literals that stand for the
page, and returns their number. -/
theorem lz4Compress_block (scFold : Bool) (htab : ℕ → UInt16) (mem : Mem Seg) :
    ∃ seqs lits, Lz4.SeqsValid 0 seqs ∧ Lz4.expand [] seqs ++ lits = mem.page ∧
      (lz4Compress scFold htab mem).eax = (Lz4.encodeSeqs seqs ++ Lz4.encodeLast lits).length ∧
      (lz4Compress scFold htab mem).m.mem =
        mem.blit .dst 0 (Lz4.encodeSeqs seqs ++ Lz4.encodeLast lits) := by
  have hrun : ∃ seqs, LzcInv scFold mem seqs
      ((lzcLoop scFold).run (lzcStart scFold htab mem)) := by
    refine (lzcLoop scFold).run_induct (I := fun s => ∃ seqs, LzcInv scFold mem seqs s)
      (P := fun s => ∃ seqs, LzcInv scFold mem seqs s) (fun s s' h hstep => ?_)
      (fun s r h hstep => ?_) _ ⟨[], lzcStart_inv scFold htab mem⟩
    · obtain ⟨seqs, hinv⟩ := h
      obtain hinv | ⟨r, -, -, hinv⟩ := lzcStep_inv hinv hstep
      exacts [⟨_, hinv⟩, ⟨_, hinv⟩]
    · have hr : lzcStep scFold s = .inr r := hstep
      rwa [← lzcStep_leaves hr]
  obtain ⟨seqs, h⟩ := hrun
  obtain ⟨lits, -, hpage, heax, hmem⟩ := h.block
  exact ⟨seqs, lits, h.valid, hpage, heax, hmem⟩

/-- The worst case : 4096 + 4096/255 + 2 bytes. -/
theorem lz4Compress_eax_le (scFold : Bool) (htab : ℕ → UInt16) (mem : Mem Seg) :
    (lz4Compress scFold htab mem).eax ≤ 4114 := by
  have h4096 : pageBytes = 4096 := rfl
  obtain ⟨seqs, lits, hvalid, hpage, heax, -⟩ := lz4Compress_block scFold htab mem
  have hseqs := Lz4.length_encodeSeqs_le [] seqs hvalid
  have hlast := Lz4.length_encodeLast_le lits
  have htotal := congrArg List.length hpage
  rw [List.length_append, length_page] at htotal
  rw [heax, List.length_append]
  simp only [List.length_nil] at hseqs
  omega

/-! ## The round trip -/

/-- The decoder's memory : `block` at ESI and whatever is at EDI. -/
def decodeMem (block out : ℕ → UInt8) : Mem Seg
  | .src => block
  | .dst => out

/-- `LZ4_Decompress` of memory that holds a block `LZ4_Compress` wrote puts the page in
its output, and nothing else. -/
theorem lz4Decompress_compress (scFold : Bool) (htab : ℕ → UInt16) (mem : Mem Seg)
    (block out : ℕ → UInt8)
    (hblock : ∀ i < (lz4Compress scFold htab mem).eax,
      block i = (lz4Compress scFold htab mem).m.mem .dst i) :
    ∃ m, lz4Decompress (lz4Compress scFold htab mem).eax (decodeMem block out) = (pageBytes, m) ∧
      m.mem = (decodeMem block out).blit .dst 0 mem.page := by
  obtain ⟨seqs, lits, hvalid, hpage, heax, hmem⟩ := lz4Compress_block scFold htab mem
  have hsame : (decodeMem block out).bytes .src 0 (lz4Compress scFold htab mem).eax =
      (lz4Compress scFold htab mem).m.mem.bytes .dst 0 (lz4Compress scFold htab mem).eax :=
    Mem.bytes_congr fun i hi => by
      rw [Nat.zero_add]
      exact hblock i hi
  have hholds : (decodeMem block out).Holds .src 0
      (Lz4.encodeSeqs seqs ++ Lz4.encodeLast lits) := by
    unfold Mem.Holds
    rw [← heax, hsame, hmem, heax, Mem.bytes_blit]
  obtain ⟨m, hdec, hout⟩ := lz4Decompress_block hvalid hholds (by rw [hpage]; simp)
  rw [hpage] at hdec hout
  rw [heax]
  exact ⟨m, by rw [hdec, length_page], hout⟩

/-- For every page, and whatever an earlier page left in HTab, decompressing what
`LZ4_Compress` wrote, with the length it returned, gives 4096 and the page. -/
theorem lz4_round_trip (scFold : Bool) (htab : ℕ → UInt16) (mem : Mem Seg) (out : ℕ → UInt8) :
    let c := lz4Compress scFold htab mem
    let d := lz4Decompress c.eax (decodeMem (c.m.mem .dst) out)
    d.1 = pageBytes ∧ ∀ i < pageBytes, d.2.mem .dst i = mem .src i := by
  intro c d
  obtain ⟨m, hd, hm⟩ := lz4Decompress_compress scFold htab mem (c.m.mem .dst) out fun i _ => rfl
  have hdec : d = (pageBytes, m) := hd
  refine ⟨by rw [hdec], fun i hi => ?_⟩
  have hget := (decodeMem (c.m.mem .dst) out).blit_apply_add (s := .dst) (a := 0)
    (by rwa [length_page] : i < mem.page.length)
  rw [Nat.zero_add] at hget
  rw [hdec, hm, hget, getElem_page]

end Inboard
