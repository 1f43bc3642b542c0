import Inboard.Loop
import Inboard.Lz4Format

/-!
# Reading a block

A reader of LZ4 blocks goes through the bytes once and puts out at most a page. It adds up a
length in a number of some width (`Width`). A block is read as sequences spelled out in it
(`Spelled`), whose lengths as they are written need not be what is copied. `readLoop_iff` says
which blocks are read and as what, for every width.
-/

namespace Inboard

namespace Lz4

/-! ## Lengths -/

/-- What lengths are read modulo, 0 if they may have any size. A nibble that is not extended is
read as it is. -/
structure Width where
  mod : ℕ
  small : ∀ n < 15, n % mod = n

/-- Numbers of any size. -/
def Width.unbounded : Width := ⟨0, fun n _ => Nat.mod_zero n⟩

/-- 32-bit registers. -/
def Width.word : Width := ⟨2 ^ 32, fun n _ => Nat.mod_eq_of_lt (by omega)⟩

/-- The extension of a length, added to `n` : 255s and the first byte that is not. -/
def readExt (w : Width) : List UInt8 → ℕ → Option (ℕ × List UInt8)
  | [], _ => none
  | b :: bs, n =>
    if b.toNat = 255 then readExt w bs ((n + b.toNat) % w.mod) else some ((n + b.toNat) % w.mod, bs)

/-- A length : its nibble, extended if that is 15. -/
def readLen (w : Width) (nib : ℕ) (bs : List UInt8) : Option (ℕ × List UInt8) :=
  if nib = 15 then readExt w bs nib else some (nib, bs)

theorem readExt_lenExt (w : Width) (bs : List UInt8) : ∀ (n a : ℕ),
    readExt w (lenExt n ++ bs) a = some ((a + n) % w.mod, bs) := by
  intro n
  induction n using Nat.strong_induction_on with
  | _ n ih =>
    intro a
    rcases Nat.lt_or_ge n 255 with hlt | hge
    · have hbyte : (UInt8.ofNat n).toNat = n := by
        rw [UInt8.toNat_ofNat']
        omega
      rw [lenExt_of_lt hlt, List.singleton_append, readExt, hbyte, if_neg (by omega)]
    · have hbyte : (255 : UInt8).toNat = 255 := rfl
      rw [lenExt_of_ge hge, List.cons_append, readExt, hbyte, if_pos rfl, ih (n - 255) (by omega),
        Nat.mod_add_mod, show a + 255 + (n - 255) = a + n by omega]

theorem readExt_some {w : Width} : ∀ {bs rest : List UInt8} {a k : ℕ},
    readExt w bs a = some (k, rest) → ∃ n, bs = lenExt n ++ rest ∧ k = (a + n) % w.mod
  | [], _, _, _, h => nomatch h
  | b :: bs, rest, a, k, h => by
    rw [readExt] at h
    split_ifs at h with hb
    · obtain ⟨n, rfl, rfl⟩ := readExt_some h
      refine ⟨n + 255, ?_, ?_⟩
      · rw [lenExt_of_ge (Nat.le_add_left 255 n), Nat.add_sub_cancel, List.cons_append]
        congr 1
        exact UInt8.toNat_inj.1 hb
      · rw [hb, Nat.mod_add_mod]
        congr 1
        omega
    · obtain ⟨rfl, rfl⟩ := Prod.mk.inj (Option.some.inj h)
      have hlt := b.toNat_lt
      refine ⟨b.toNat, ?_, rfl⟩
      rw [lenExt_of_lt (by omega), UInt8.ofNat_toNat]
      rfl

section Len

variable {w : Width}

theorem readLen_nibble (n : ℕ) (bs : List UInt8) :
    readLen w (nibble n) (nibbleExt n ++ bs) = some (n % w.mod, bs) := by
  unfold readLen nibble nibbleExt
  rcases Nat.lt_or_ge n 15 with hlt | hge
  · rw [Nat.min_eq_left (by omega), if_neg (by omega), if_pos hlt, w.small n hlt]
    rfl
  · rw [Nat.min_eq_right hge, if_pos rfl, if_neg (by omega), readExt_lenExt]
    congr 3
    omega

theorem readLen_some {nib k : ℕ} {bs rest : List UInt8} (hnib : nib ≤ 15)
    (h : readLen w nib bs = some (k, rest)) :
    ∃ n, nib = nibble n ∧ bs = nibbleExt n ++ rest ∧ k = n % w.mod := by
  unfold readLen at h
  split_ifs at h with h15
  · obtain ⟨n, rfl, rfl⟩ := readExt_some h
    refine ⟨15 + n, ?_, ?_, by rw [h15]⟩
    · unfold nibble
      omega
    · rw [nibbleExt, if_neg (by omega), Nat.add_sub_cancel_left]
  · obtain ⟨rfl, rfl⟩ := Prod.mk.inj (Option.some.inj h)
    refine ⟨nib, ?_, ?_, (w.small nib (by omega)).symm⟩
    · unfold nibble
      omega
    · rw [nibbleExt, if_pos (by omega)]
      rfl

end Len

/-! ## A round -/

section Read

variable (w : Width) (page : ℕ)

/-- A token and its literals : the match's nibble, the bytes left and what is out. -/
def readLits : List UInt8 → List UInt8 → Option (ℕ × List UInt8 × List UInt8)
  | [], _ => none
  | tok :: bs, out => do
    let (lit, bs) ← readLen w (tok.toNat / 16) bs
    if page < out.length + lit ∨ bs.length < lit then none
    else return (tok.toNat % 16, bs.drop lit, out ++ bs.take lit)

/-- An offset and its match. -/
def readMatch (lo : ℕ) : List UInt8 → List UInt8 → Option (List UInt8 × List UInt8)
  | b₀ :: b₁ :: bs, out => do
    let off := b₀.toNat + 256 * b₁.toNat
    if off = 0 ∨ out.length < off then none
    else
      let (len, bs) ← readLen w lo bs
      if page < out.length + (len + 4) % w.mod then none
      else return (bs, copyMatch off ((len + 4) % w.mod) out)
  | _, _ => none

/-- A round : a sequence, or the last literals. -/
def readStep (p : List UInt8 × List UInt8) :
    (List UInt8 × List UInt8) ⊕ Option (List UInt8) :=
  match readLits w page p.1 p.2 with
  | none => .inr none
  | some (_, [], out) => .inr (some out)
  | some (lo, bs, out) =>
    match readMatch w page lo bs out with
    | none => .inr none
    | some p => .inl p

end Read

/-! ## What is spelled -/

/-- Literals and a match as they are written. -/
structure Spelled where
  lit : ℕ
  lits : List UInt8
  off : ℕ
  len : ℕ

def Spelled.encode (s : Spelled) : List UInt8 :=
  token (nibble s.lit) (nibble (s.len - 4)) :: nibbleExt s.lit ++ s.lits ++
    le16 s.off ++ nibbleExt (s.len - 4)

/-- The last literals. Nothing reads the other nibble, `lo`. -/
def encodeEnd (lit lo : ℕ) (lits : List UInt8) : List UInt8 :=
  token (nibble lit) lo :: nibbleExt lit ++ lits

def encodeSpelled (seqs : List Spelled) : List UInt8 := seqs.flatMap Spelled.encode

section Width

variable (w : Width)

/-- What a sequence adds to the output. -/
def Spelled.expand (s : Spelled) (out : List UInt8) : List UInt8 :=
  copyMatch s.off (s.len % w.mod) (out ++ s.lits)

def expandSpelled : List UInt8 → List Spelled → List UInt8
  | out, [] => out
  | out, s :: seqs => expandSpelled (s.expand w out) seqs

/-- A sequence the format can carry after `n` bytes of output, with as many literals as are read. -/
structure Spelled.Valid (s : Spelled) (n : ℕ) : Prop where
  lits : s.lits.length = s.lit % w.mod
  off_pos : 1 ≤ s.off
  off_lt : s.off < 2 ^ 16
  off_le : s.off ≤ n + s.lits.length
  len_ge : 4 ≤ s.len

def SpelledValid : List UInt8 → List Spelled → Prop
  | _, [] => True
  | out, s :: seqs => s.Valid w out.length ∧ SpelledValid (s.expand w out) seqs

end Width

section Rounds

variable {w : Width} {page : ℕ} {bs rest out : List UInt8}

@[simp] theorem Spelled.length_expand (s : Spelled) (out : List UInt8) :
    (s.expand w out).length = out.length + s.lits.length + s.len % w.mod := by
  simp [Spelled.expand]

theorem length_le_expandSpelled : ∀ (out : List UInt8) (seqs : List Spelled),
    out.length ≤ (expandSpelled w out seqs).length
  | _, [] => Nat.le_refl _
  | out, s :: seqs => by
    have hgrow := length_le_expandSpelled (s.expand w out) seqs
    rw [Spelled.length_expand] at hgrow
    rw [expandSpelled]
    omega

theorem readLits_token {lit lo : ℕ} (hlo : lo ≤ 15) :
    readLits w page (token (nibble lit) lo :: nibbleExt lit ++ bs) out =
      if page < out.length + lit % w.mod ∨ bs.length < lit % w.mod then none
      else some (lo, bs.drop (lit % w.mod), out ++ bs.take (lit % w.mod)) := by
  have hnib := nibble_le lit
  rw [List.cons_append, readLits, token_div hnib hlo, readLen_nibble]
  simp only [Option.bind_eq_bind, Option.bind_some, token_mod hnib hlo]
  rfl

theorem readLits_lits {lit lo : ℕ} (hlo : lo ≤ 15) {lits : List UInt8}
    (hlits : lits.length = lit % w.mod) (hroom : out.length + lits.length ≤ page) :
    readLits w page (encodeEnd lit lo lits ++ bs) out = some (lo, bs, out ++ lits) := by
  rw [encodeEnd, List.append_assoc, readLits_token hlo, ← hlits, if_neg (by simp; omega),
    List.drop_left, List.take_left]

theorem readMatch_match {off len : ℕ} (hpos : 1 ≤ off) (hlt : off < 2 ^ 16)
    (hoff : off ≤ out.length) (hlen : 4 ≤ len) :
    readMatch w page (nibble (len - 4)) (le16 off ++ nibbleExt (len - 4) ++ bs) out =
      if page < out.length + len % w.mod then none
      else some (bs, copyMatch off (len % w.mod) out) := by
  have hword : (UInt8.ofNat (off % 256)).toNat + 256 * (UInt8.ofNat (off / 256 % 256)).toNat =
      off := by
    rw [UInt8.toNat_ofNat', UInt8.toNat_ofNat']
    omega
  have hcopy : ((len - 4) % w.mod + 4) % w.mod = len % w.mod := by
    rw [Nat.mod_add_mod, Nat.sub_add_cancel hlen]
  unfold le16
  rw [List.append_assoc]
  dsimp only [List.cons_append, List.nil_append, readMatch]
  rw [hword, if_neg (by omega), readLen_nibble]
  simp only [Option.bind_eq_bind, Option.bind_some, hcopy]
  rfl

/-- What the literals of a sequence leave. -/
theorem readStep_match {s : Spelled} (hlits : s.lits.length = s.lit % w.mod)
    (hroom : out.length + s.lits.length ≤ page) (hpos : 1 ≤ s.off) (hlt : s.off < 2 ^ 16)
    (hoff : s.off ≤ out.length + s.lits.length) (hlen : 4 ≤ s.len) :
    readStep w page (s.encode ++ bs, out) =
      if page < out.length + s.lits.length + s.len % w.mod then .inr none
      else .inl (bs, s.expand w out) := by
  have hsplit : s.encode ++ bs = encodeEnd s.lit (nibble (s.len - 4)) s.lits ++
      (le16 s.off ++ nibbleExt (s.len - 4) ++ bs) := by
    simp [Spelled.encode, encodeEnd]
  have hmatch : readMatch w page (nibble (s.len - 4)) (le16 s.off ++ nibbleExt (s.len - 4) ++ bs)
      (out ++ s.lits) = _ := readMatch_match hpos hlt (by simpa using hoff) hlen
  rw [List.length_append] at hmatch
  unfold readStep
  dsimp only
  rw [hsplit, readLits_lits (nibble_le _) hlits hroom]
  unfold le16 at hmatch ⊢
  dsimp only [List.cons_append]
  dsimp only [List.cons_append] at hmatch
  rw [hmatch]
  split_ifs <;> rfl

/-- A round reads a sequence. -/
theorem readStep_spelled {s : Spelled} (hs : s.Valid w out.length)
    (hroom : (s.expand w out).length ≤ page) :
    readStep w page (s.encode ++ bs, out) = .inl (bs, s.expand w out) := by
  rw [Spelled.length_expand] at hroom
  rw [readStep_match hs.lits (by omega) hs.off_pos hs.off_lt hs.off_le hs.len_ge,
    if_neg (by omega)]

/-- A round reads no literals for which the page has no room. -/
theorem readStep_full {lit lo : ℕ} (hlo : lo ≤ 15) (bs : List UInt8)
    (hfull : page < out.length + lit % w.mod) :
    readStep w page (token (nibble lit) lo :: nibbleExt lit ++ bs, out) = .inr none := by
  unfold readStep
  dsimp only
  rw [readLits_token hlo, if_pos (Or.inl hfull)]

/-- A round reads the last literals. -/
theorem readStep_end {lit lo : ℕ} (hlo : lo ≤ 15) {lits : List UInt8}
    (hlits : lits.length = lit % w.mod) (hroom : out.length + lits.length ≤ page) :
    readStep w page (encodeEnd lit lo lits, out) = .inr (some (out ++ lits)) := by
  have hread : readLits w page (encodeEnd lit lo lits ++ []) out = some (lo, [], out ++ lits) :=
    readLits_lits hlo hlits hroom
  rw [List.append_nil] at hread
  unfold readStep
  dsimp only
  rw [hread]

theorem readLits_some {lo : ℕ} {out' : List UInt8}
    (h : readLits w page bs out = some (lo, rest, out')) :
    lo ≤ 15 ∧ ∃ lit lits, bs = encodeEnd lit lo lits ++ rest ∧ lits.length = lit % w.mod ∧
      out' = out ++ lits ∧ out'.length ≤ page := by
  cases bs with
  | nil => exact nomatch h
  | cons tok bs =>
    rw [readLits] at h
    obtain ⟨⟨n, bs'⟩, hlen, h⟩ := Option.bind_eq_some_iff.1 h
    dsimp only at h
    split_ifs at h with hroom
    simp only [pure, Option.some.injEq, Prod.mk.injEq] at h
    obtain ⟨rfl, rfl, rfl⟩ := h
    have hlt := tok.toNat_lt
    obtain ⟨lit, hnib, rfl, rfl⟩ := readLen_some (by omega) hlen
    have htake : (bs'.take (lit % w.mod)).length = lit % w.mod := by
      rw [List.length_take]
      omega
    refine ⟨by omega, lit, bs'.take (lit % w.mod), ?_, htake, rfl, ?_⟩
    · have htok : token (nibble lit) (tok.toNat % 16) = tok := by
        rw [← hnib, token, Nat.div_add_mod, UInt8.ofNat_toNat]
      rw [encodeEnd, htok, List.append_assoc, List.take_append_drop, List.cons_append]
    · rw [List.length_append, htake]
      omega

theorem readMatch_some {lo : ℕ} (hlo : lo ≤ 15) {p : List UInt8 × List UInt8}
    (h : readMatch w page lo bs out = some p) :
    ∃ off len, lo = nibble (len - 4) ∧ bs = le16 off ++ nibbleExt (len - 4) ++ p.1 ∧ 1 ≤ off ∧
      off < 2 ^ 16 ∧ off ≤ out.length ∧ 4 ≤ len ∧ p.2 = copyMatch off (len % w.mod) out ∧
      p.2.length ≤ page := by
  match bs, h with
  | b₀ :: b₁ :: bs, h =>
    dsimp only [readMatch] at h
    split_ifs at h with hoff
    obtain ⟨⟨n, bs'⟩, hlen, h⟩ := Option.bind_eq_some_iff.1 h
    dsimp only at h
    split_ifs at h with hroom
    obtain rfl := Option.some.inj h
    obtain ⟨k, hnib, rfl, rfl⟩ := readLen_some hlo hlen
    rw [Nat.mod_add_mod] at hroom ⊢
    have hlt₀ := b₀.toNat_lt
    have hlt₁ := b₁.toNat_lt
    refine ⟨b₀.toNat + 256 * b₁.toNat, k + 4, by simpa using hnib, ?_, by omega, by omega,
      by omega, by omega, rfl, by simpa using hroom⟩
    have hword : le16 (b₀.toNat + 256 * b₁.toNat) = [b₀, b₁] := by
      rw [le16, show (b₀.toNat + 256 * b₁.toNat) % 256 = b₀.toNat by omega,
        show (b₀.toNat + 256 * b₁.toNat) / 256 % 256 = b₁.toNat by omega, UInt8.ofNat_toNat,
        UInt8.ofNat_toNat]
    rw [hword, Nat.add_sub_cancel]
    simp

/-- A round that goes on has read a sequence. -/
theorem readStep_inl {out' : List UInt8}
    (h : readStep w page (bs, out) = .inl (rest, out')) :
    ∃ s : Spelled, s.Valid w out.length ∧ bs = s.encode ++ rest ∧ out' = s.expand w out ∧
      out'.length ≤ page := by
  unfold readStep at h
  dsimp only at h
  split at h
  · cases h
  · cases h
  next lo bs' out₁ hne hlits =>
    cases hm : readMatch w page lo bs' out₁ with
    | none => rw [hm] at h; cases h
    | some p =>
      rw [hm] at h
      obtain rfl := Sum.inl.inj h
      obtain ⟨hlo, lit, lits, rfl, hlen, rfl, -⟩ := readLits_some hlits
      obtain ⟨off, len, rfl, rfl, hpos, hlt, hoff, hge, hout, hpage⟩ := readMatch_some hlo hm
      refine ⟨⟨lit, lits, off, len⟩, ⟨hlen, hpos, hlt, by simpa using hoff, hge⟩, ?_, hout, hpage⟩
      simp [Spelled.encode, encodeEnd]

/-- A round that puts out a page has read the last literals. -/
theorem readStep_inr {o : List UInt8}
    (h : readStep w page (bs, out) = .inr (some o)) :
    ∃ lit lo lits, lo ≤ 15 ∧ bs = encodeEnd lit lo lits ∧ lits.length = lit % w.mod ∧
      o = out ++ lits ∧ o.length ≤ page := by
  unfold readStep at h
  dsimp only at h
  split at h
  · cases h
  next lo o' hlits =>
    obtain rfl := Option.some.inj (Sum.inr.inj h)
    obtain ⟨hlo, lit, lits, rfl, hlen, rfl, hpage⟩ := readLits_some hlits
    exact ⟨lit, lo, lits, hlo, List.append_nil _, hlen, rfl, hpage⟩
  next lo bs' out₁ hne hlits =>
    cases hm : readMatch w page lo bs' out₁ with
    | none => rw [hm] at h; cases h
    | some p => rw [hm] at h; cases h

end Rounds

/-! ## Reading to the end -/

theorem Spelled.length_encode_pos (s : Spelled) : 0 < s.encode.length := by
  simp [Spelled.encode]

def readLoop (w : Width) (page : ℕ) : Loop (List UInt8 × List UInt8) (Option (List UInt8)) where
  step := readStep w page
  measure p := p.1.length
  decreases p q h := by
    obtain ⟨s, -, hbs, -⟩ := readStep_inl h
    have hpos := s.length_encode_pos
    rw [hbs, List.length_append]
    omega

section Runs

variable {w : Width} {page : ℕ}

theorem readLoop_nil (out : List UInt8) : (readLoop w page).run ([], out) = none :=
  (readLoop w page).run_of_inr rfl

/-- Sequences that are spelled are read. -/
theorem readLoop_spelled (bs : List UInt8) : ∀ {seqs : List Spelled} {out : List UInt8},
    SpelledValid w out seqs → (expandSpelled w out seqs).length ≤ page →
      (readLoop w page).run (encodeSpelled seqs ++ bs, out) =
        (readLoop w page).run (bs, expandSpelled w out seqs)
  | [], _, _, _ => rfl
  | s :: seqs, out, hvalid, hroom => by
    have hgrow := length_le_expandSpelled (w := w) (s.expand w out) seqs
    rw [expandSpelled] at hroom
    have hstep : (readLoop w page).step (encodeSpelled (s :: seqs) ++ bs, out) =
        .inl (encodeSpelled seqs ++ bs, s.expand w out) := by
      rw [encodeSpelled, List.flatMap_cons, List.append_assoc]
      exact readStep_spelled hvalid.1 (Nat.le_trans hgrow hroom)
    rw [(readLoop w page).run_of_inl hstep]
    exact readLoop_spelled bs hvalid.2 hroom

/-- A block is sequences and the last literals. -/
structure Spells (w : Width) (out bs page : List UInt8) where
  seqs : List Spelled
  lit : ℕ
  lo : ℕ
  lits : List UInt8
  valid : SpelledValid w out seqs
  lo_le : lo ≤ 15
  lits_length : lits.length = lit % w.mod
  bytes : bs = encodeSpelled seqs ++ encodeEnd lit lo lits
  page_eq : page = expandSpelled w out seqs ++ lits

/-- A page is put out exactly for a block that spells it. -/
theorem readLoop_iff : ∀ {bs out o : List UInt8},
    (readLoop w page).run (bs, out) = some o ↔ o.length ≤ page ∧ Nonempty (Spells w out bs o) := by
  intro bs
  induction hn : bs.length using Nat.strong_induction_on generalizing bs with
  | _ n ih =>
    subst hn
    intro out o
    constructor
    · intro hrun
      cases hstep : (readLoop w page).step (bs, out) with
      | inr r =>
        rw [(readLoop w page).run_of_inr hstep] at hrun
        subst hrun
        obtain ⟨lit, lo, lits, hlo, hbytes, hlen, hpage, hroom⟩ := readStep_inr hstep
        exact ⟨hroom, ⟨[], lit, lo, lits, trivial, hlo, hlen, hbytes, hpage⟩⟩
      | inl q =>
        have hless := (readLoop w page).decreases _ _ hstep
        rw [(readLoop w page).run_of_inl hstep] at hrun
        obtain ⟨hroom, ⟨seqs, lit, lo, lits, hvalid, hlo, hlen, hbytes, hpage⟩⟩ :=
          (ih _ hless rfl).1 hrun
        obtain ⟨s, hs, hbs, hout, -⟩ := readStep_inl hstep
        rw [hout] at hvalid hpage
        refine ⟨hroom, ⟨s :: seqs, lit, lo, lits, ⟨hs, hvalid⟩, hlo, hlen, ?_, hpage⟩⟩
        rw [hbs, hbytes, ← List.append_assoc]
        rfl
    · rintro ⟨hroom, ⟨seqs, lit, lo, lits, hvalid, hlo, hlen, rfl, rfl⟩⟩
      rw [List.length_append] at hroom
      rw [readLoop_spelled _ hvalid (by omega)]
      exact (readLoop w page).run_of_inr (readStep_end hlo hlen hroom)

/-! ## Lengths as they are -/

/-- A sequence, spelled. -/
def Seq.spelled (s : Seq) : Spelled := ⟨s.lits.length, s.lits, s.off, s.len⟩

theorem Seq.encode_spelled (seqs : List Seq) :
    encodeSpelled (seqs.map Seq.spelled) = encodeSeqs seqs := by
  rw [encodeSpelled, encodeSeqs, List.flatMap_map]
  rfl

/-- Lengths within the width are as they are. -/
theorem expand_spelled (hw : ∀ n ≤ page, n % w.mod = n) : ∀ (seqs : List Seq) (out : List UInt8),
    SeqsValid out.length seqs → (expand out seqs).length ≤ page →
      SpelledValid w out (seqs.map Seq.spelled) ∧
        expandSpelled w out (seqs.map Seq.spelled) = expand out seqs
  | [], _, _, _ => ⟨trivial, rfl⟩
  | s :: seqs, out, hvalid, hroom => by
    have hgrow := length_le_expand (s.expand out) seqs
    rw [expand] at hroom
    rw [length_expand_seq] at hgrow
    have hexpand : s.spelled.expand w out = s.expand out := by
      unfold Spelled.expand Seq.expand Seq.spelled
      dsimp only
      rw [hw _ (by omega)]
    obtain ⟨hrest, heq⟩ := expand_spelled hw seqs (s.expand out)
      (by rw [length_expand_seq]; exact hvalid.2) hroom
    rw [List.map_cons, expandSpelled, SpelledValid, hexpand]
    have hlits : s.spelled.lits.length ≤ page := by
      change s.lits.length ≤ page
      omega
    exact ⟨⟨⟨(hw _ hlits).symm, hvalid.1.off_pos, hvalid.1.off_lt, hvalid.1.off_le,
      hvalid.1.len_ge⟩, hrest⟩, heq⟩

/-- Spelled sequences whose lengths are as they are. -/
theorem spelled_of_lengths : ∀ {seqs : List Spelled} {out : List UInt8}, SpelledValid w out seqs →
    (∀ s ∈ seqs, s.lit % w.mod = s.lit ∧ s.len % w.mod = s.len) →
      ∃ plain : List Seq, seqs = plain.map Seq.spelled ∧ SeqsValid out.length plain ∧
        expandSpelled w out seqs = expand out plain
  | [], _, _, _ => ⟨[], rfl, trivial, rfl⟩
  | s :: seqs, out, hvalid, hlens => by
    obtain ⟨hlit, hlen⟩ := hlens s List.mem_cons_self
    obtain ⟨plain, rfl, hplain, heq⟩ := spelled_of_lengths hvalid.2
      fun t ht => hlens t (List.mem_cons_of_mem s ht)
    have hs := hvalid.1.lits
    rw [Spelled.length_expand, hlen] at hplain
    refine ⟨⟨s.lits, s.off, s.len⟩ :: plain, ?_, ⟨⟨hvalid.1.off_pos, hvalid.1.off_lt,
      hvalid.1.off_le, hvalid.1.len_ge⟩, hplain⟩, ?_⟩
    · rw [List.map_cons, Seq.spelled, hs, hlit]
    · rw [expandSpelled, heq, Spelled.expand, hlen]
      rfl

/-- Sequences and last literals are read, if the width has their lengths. -/
theorem readLoop_seqs (hw : ∀ n ≤ page, n % w.mod = n) {seqs : List Seq} {lits : List UInt8}
    {lo : ℕ} (hlo : lo ≤ 15) (hvalid : SeqsValid 0 seqs)
    (hroom : (expand [] seqs ++ lits).length ≤ page) :
    (readLoop w page).run (encodeSeqs seqs ++ encodeEnd lits.length lo lits, []) =
      some (expand [] seqs ++ lits) := by
  have hroom' := hroom
  rw [List.length_append] at hroom'
  obtain ⟨hspelled, heq⟩ := expand_spelled hw seqs [] hvalid (by omega)
  rw [readLoop_iff]
  refine ⟨hroom, ⟨seqs.map Seq.spelled, lits.length, lo, lits, hspelled, hlo,
    (hw _ (by omega)).symm, ?_, by rw [heq]⟩⟩
  rw [Seq.encode_spelled]

/-- Sequences alone are not. -/
theorem readLoop_unended (hw : ∀ n ≤ page, n % w.mod = n) {seqs : List Seq}
    (hvalid : SeqsValid 0 seqs) (hroom : (expand [] seqs).length ≤ page) :
    (readLoop w page).run (encodeSeqs seqs, []) = none := by
  obtain ⟨hspelled, heq⟩ := expand_spelled hw seqs [] hvalid hroom
  rw [← heq] at hroom
  have hrun := readLoop_spelled [] hspelled hroom
  rwa [List.append_nil, Seq.encode_spelled, readLoop_nil] at hrun

/-- A block whose lengths are as they are is read as that. -/
theorem Spells.plain {bs o : List UInt8} (b : Spells w [] bs o)
    (hlit : b.lit % w.mod = b.lit)
    (hlens : ∀ s ∈ b.seqs, s.lit % w.mod = s.lit ∧ s.len % w.mod = s.len) :
    ∃ seqs lo lits, lo ≤ 15 ∧ SeqsValid 0 seqs ∧
      bs = encodeSeqs seqs ++ encodeEnd lits.length lo lits ∧ o = expand [] seqs ++ lits := by
  obtain ⟨plain, hseqs, hvalid, heq⟩ := spelled_of_lengths b.valid hlens
  have hlits := b.lits_length
  refine ⟨plain, b.lo, b.lits, b.lo_le, hvalid, ?_, ?_⟩
  · rw [hlits, hlit, ← Seq.encode_spelled, ← hseqs]
    exact b.bytes
  · rw [← heq]
    exact b.page_eq

end Runs

end Lz4

end Inboard
