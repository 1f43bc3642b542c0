import Inboard.Lz4Decompress

/-!
# The decoder of sectors.py

`lz4_decode` of sectors.py counts how the pages of a swap file were stored : a page, if the bytes
are a block `LZ4_Decompress` takes for one. It takes one kind of bytes `LZ4_Decompress` does not,
those that end right after a match, and leaves one kind it takes, those with a length its
registers do not hold (`lz4_decode_agrees_iff`). Both loops are read as the format has it.
-/

set_option linter.unusedSectionVars false

namespace Inboard

/-! ## `lz4_decode` -/

/-- The extension of a length : bytes are added up to the first that is not 255. -/
def lz4DecodeExt : List UInt8 → ℕ → Option (ℕ × List UInt8)
  | [], _ => none
  | b :: blk, lit =>
    let lit := lit + b.toNat
    if b.toNat ≠ 255 then some (lit, blk) else lz4DecodeExt blk lit

/-- What is returned : `out`, if it is a page. -/
def lz4DecodePage (out : List UInt8) : Option (List UInt8) :=
  if out.length = pageBytes then some out else none

/-- The rest of a round, from the match's offset on. -/
def lz4DecodeMatch (tok : ℕ) (blk out : List UInt8) :
    (List UInt8 × List UInt8) ⊕ Option (List UInt8) :=
  match blk with
  | b₀ :: b₁ :: blk =>
    let off := b₁.toNat <<< 8 ||| b₀.toNat
    if off = 0 ∨ out.length < off then .inr none
    else
      let ml := tok % 16
      match if ml = 15 then lz4DecodeExt blk ml else some (ml, blk) with
      | none => .inr none
      | some (ml, blk) =>
        let ml := ml + 4
        if pageBytes < out.length + ml then .inr none
        else .inl (blk, Lz4.copyMatch off ml out)
  | _ => .inr none

/-- A round of `lz4_decode` : `blk` is what is left of the block. -/
def lz4DecodeStep (p : List UInt8 × List UInt8) :
    (List UInt8 × List UInt8) ⊕ Option (List UInt8) :=
  match p with
  | ([], out) => .inr (lz4DecodePage out)
  | (b :: blk, out) =>
    let tok := b.toNat
    let lit := tok >>> 4
    match if lit = 15 then lz4DecodeExt blk lit else some (lit, blk) with
    | none => .inr none
    | some (lit, blk) =>
      if blk.length < lit ∨ pageBytes < out.length + lit then .inr none
      else
        let out := out ++ blk.take lit
        match blk.drop lit with
        | [] => .inr (lz4DecodePage out)
        | blk => lz4DecodeMatch tok blk out

theorem lz4DecodeExt_eq : ∀ (blk : List UInt8) (lit : ℕ),
    lz4DecodeExt blk lit = Lz4.readExt .unbounded blk lit
  | [], _ => rfl
  | b :: blk, lit => by
    rw [lz4DecodeExt, Lz4.readExt, lz4DecodeExt_eq blk, show Lz4.Width.unbounded.mod = 0 from rfl,
      Nat.mod_zero, ite_not]

theorem lz4DecodeLen_eq (nib : ℕ) (blk : List UInt8) :
    (if nib = 15 then lz4DecodeExt blk nib else some (nib, blk)) =
      Lz4.readLen .unbounded nib blk := by
  rw [lz4DecodeExt_eq]
  rfl

theorem lz4DecodeMatch_eq (tok : ℕ) : ∀ (blk out : List UInt8),
    lz4DecodeMatch tok blk out =
      match Lz4.readMatch .unbounded pageBytes (tok % 16) blk out with
      | none => .inr none
      | some p => .inl p
  | [], _ => rfl
  | [_], _ => rfl
  | b₀ :: b₁ :: blk, out => by
    have hlt := b₀.toNat_lt
    have hoff : b₁.toNat <<< 8 ||| b₀.toNat = b₀.toNat + 256 * b₁.toNat := by
      rw [← Nat.shiftLeft_add_eq_or_of_lt hlt, Nat.shiftLeft_eq]
      omega
    rw [lz4DecodeMatch, Lz4.readMatch]
    dsimp only
    rw [hoff]
    by_cases h : b₀.toNat + 256 * b₁.toNat = 0 ∨ out.length < b₀.toNat + 256 * b₁.toNat
    · rw [if_pos h, if_pos h]
    rw [if_neg h, if_neg h, lz4DecodeLen_eq]
    cases Lz4.readLen .unbounded (tok % 16) blk with
    | none => rfl
    | some r =>
      simp only [Option.bind_eq_bind, Option.bind_some, show Lz4.Width.unbounded.mod = 0 from rfl,
        Nat.mod_zero]
      split_ifs <;> rfl

/-- A round is as the format has it with lengths of any size, but only a page is returned. -/
theorem lz4DecodeStep_eq (b : UInt8) (blk out : List UInt8) :
    lz4DecodeStep (b :: blk, out) =
      (Lz4.readStep .unbounded pageBytes (b :: blk, out)).map id (·.bind lz4DecodePage) := by
  unfold lz4DecodeStep Lz4.readStep
  dsimp only
  rw [lz4DecodeLen_eq, Lz4.readLits, Nat.shiftRight_eq_div_pow]
  cases Lz4.readLen .unbounded (b.toNat / 2 ^ 4) blk with
  | none => rfl
  | some r =>
    obtain ⟨lit, rest⟩ := r
    simp only [Option.bind_eq_bind, Option.bind_some]
    by_cases h : rest.length < lit ∨ pageBytes < out.length + lit
    · rw [if_pos h, if_pos h.symm]
      rfl
    rw [if_neg h, if_neg fun h' => h h'.symm]
    cases rest.drop lit with
    | nil => rfl
    | cons c rest =>
      dsimp only [pure]
      rw [lz4DecodeMatch_eq]
      cases Lz4.readMatch .unbounded pageBytes (b.toNat % 16) (c :: rest) (out ++ _) <;> rfl

theorem lz4DecodeStep_inl : ∀ {p q : List UInt8 × List UInt8},
    lz4DecodeStep p = .inl q ↔ Lz4.readStep .unbounded pageBytes p = .inl q
  | ([], _), _ => ⟨nofun, nofun⟩
  | (b :: blk, out), q => by
    rw [lz4DecodeStep_eq]
    cases Lz4.readStep .unbounded pageBytes (b :: blk, out) with
    | inl p => rfl
    | inr r => exact ⟨nofun, nofun⟩

def lz4DecodeLoop : Loop (List UInt8 × List UInt8) (Option (List UInt8)) where
  step := lz4DecodeStep
  measure p := p.1.length
  decreases _ _ h :=
    (Lz4.readLoop .unbounded pageBytes).decreases _ _ (lz4DecodeStep_inl.1 h)

/-- `lz4_decode`. -/
def lz4Decode (blk : List UInt8) : Option (List UInt8) := lz4DecodeLoop.run (blk, [])

/-! ## What it takes -/

theorem lz4DecodePage_some {out page : List UInt8} :
    lz4DecodePage out = some page ↔ page.length = pageBytes ∧ out = page := by
  unfold lz4DecodePage
  split_ifs with h
  · rw [Option.some.injEq]
    exact ⟨fun heq => ⟨heq ▸ h, heq⟩, fun heq => heq.2⟩
  · exact ⟨nofun, fun heq => absurd (heq.2 ▸ heq.1) h⟩

theorem lz4DecodeLoop_nil (out : List UInt8) : lz4DecodeLoop.run ([], out) = lz4DecodePage out :=
  lz4DecodeLoop.run_of_inr rfl

theorem lz4DecodeLoop_inr {b : UInt8} {blk out : List UInt8} {r : Option (List UInt8)}
    (h : Lz4.readStep .unbounded pageBytes (b :: blk, out) = .inr r) :
    lz4DecodeLoop.run (b :: blk, out) = r.bind lz4DecodePage := by
  have hstep := lz4DecodeStep_eq b blk out
  rw [h] at hstep
  exact lz4DecodeLoop.run_of_inr hstep

/-- Sequences that are spelled are decoded. -/
theorem lz4DecodeLoop_spelled (blk : List UInt8) : ∀ {seqs : List Lz4.Spelled} {out : List UInt8},
    Lz4.SpelledValid .unbounded out seqs →
      (Lz4.expandSpelled .unbounded out seqs).length ≤ pageBytes →
        lz4DecodeLoop.run (Lz4.encodeSpelled seqs ++ blk, out) =
          lz4DecodeLoop.run (blk, Lz4.expandSpelled .unbounded out seqs)
  | [], _, _, _ => rfl
  | s :: seqs, out, hvalid, hroom => by
    have hgrow := Lz4.length_le_expandSpelled (w := .unbounded) (s.expand .unbounded out) seqs
    rw [Lz4.expandSpelled] at hroom
    rw [Lz4.encodeSpelled, List.flatMap_cons, List.append_assoc]
    have hround : Lz4.readStep .unbounded pageBytes
        (s.encode ++ (Lz4.encodeSpelled seqs ++ blk), out) = _ :=
      Lz4.readStep_spelled hvalid.1 (Nat.le_trans hgrow hroom)
    exact (lz4DecodeLoop.run_of_inl (lz4DecodeStep_inl.2 hround)).trans
      (lz4DecodeLoop_spelled blk hvalid.2 hroom)

/-- A page returned is that of a block, or of sequences alone. -/
theorem lz4DecodeLoop_some {blk : List UInt8} : ∀ {out page : List UInt8},
    lz4DecodeLoop.run (blk, out) = some page → page.length = pageBytes ∧
      (Nonempty (Lz4.Spells .unbounded out blk page) ∨
        ∃ seqs, Lz4.SpelledValid .unbounded out seqs ∧ blk = Lz4.encodeSpelled seqs ∧
          page = Lz4.expandSpelled .unbounded out seqs) := by
  induction hn : blk.length using Nat.strong_induction_on generalizing blk with
  | _ n ih =>
    subst hn
    intro out page hrun
    cases blk with
    | nil =>
      rw [lz4DecodeLoop_nil, lz4DecodePage_some] at hrun
      exact ⟨hrun.1, Or.inr ⟨[], trivial, rfl, hrun.2.symm⟩⟩
    | cons b blk =>
      cases hread : Lz4.readStep .unbounded pageBytes (b :: blk, out) with
      | inl p =>
        obtain ⟨rest, out'⟩ := p
        have hstep : lz4DecodeLoop.step (b :: blk, out) = .inl (rest, out') :=
          lz4DecodeStep_inl.2 hread
        rw [lz4DecodeLoop.run_of_inl hstep] at hrun
        obtain ⟨hpage, hrest⟩ := ih _ (lz4DecodeLoop.decreases _ _ hstep) rfl hrun
        obtain ⟨s, hs, hbytes, rfl, -⟩ := Lz4.readStep_inl hread
        refine ⟨hpage, ?_⟩
        rcases hrest with ⟨seqs, lit, lo, lits, hvalid, hlo, hlen, rfl, heq⟩ |
          ⟨seqs, hvalid, rfl, heq⟩
        · refine Or.inl ⟨s :: seqs, lit, lo, lits, ⟨hs, hvalid⟩, hlo, hlen, ?_, heq⟩
          rw [hbytes, ← List.append_assoc]
          rfl
        · exact Or.inr ⟨s :: seqs, ⟨hs, hvalid⟩, hbytes, heq⟩
      | inr r =>
        rw [lz4DecodeLoop_inr hread] at hrun
        obtain ⟨o, rfl, ho⟩ := Option.bind_eq_some_iff.1 hrun
        rw [lz4DecodePage_some] at ho
        obtain ⟨hpage, rfl⟩ := ho
        obtain ⟨lit, lo, lits, hlo, hbytes, hlen, heq, -⟩ := Lz4.readStep_inr hread
        exact ⟨hpage, Or.inl ⟨[], lit, lo, lits, trivial, hlo, hlen, hbytes, heq⟩⟩

theorem Lz4.Spells.lz4Decode {blk page : List UInt8} (b : Lz4.Spells .unbounded [] blk page)
    (hpage : page.length = pageBytes) : lz4Decode blk = some page := by
  obtain ⟨seqs, lit, lo, lits, hvalid, hlo, hlen, rfl, rfl⟩ := b
  have hroom := hpage
  rw [List.length_append] at hroom
  unfold Inboard.lz4Decode
  rw [lz4DecodeLoop_spelled _ hvalid (by omega)]
  have hend : Lz4.readStep .unbounded pageBytes
      (Lz4.encodeEnd lit lo lits, Lz4.expandSpelled .unbounded [] seqs) = _ :=
    Lz4.readStep_end hlo hlen (by omega)
  exact (lz4DecodeLoop_inr hend).trans (lz4DecodePage_some.2 ⟨hpage, rfl⟩)

/-! ## Where they part -/

/-- The bytes fill the page and end right after a match. -/
def EndsInMatch (blk : List UInt8) : Prop :=
  ∃ seqs, Lz4.SeqsValid 0 seqs ∧ blk = Lz4.encodeSeqs seqs ∧
    (Lz4.expand [] seqs).length = pageBytes

/-- The bytes are a block that fills the page, with a length that a register does not hold. -/
def FillsWrapped (blk : List UInt8) : Prop :=
  ∃ page, page.length = pageBytes ∧ ∃ b : Lz4.Spells .word [] blk page,
    2 ^ 32 ≤ b.lit ∨ ∃ s ∈ b.seqs, 2 ^ 32 ≤ s.lit ∨ 2 ^ 32 ≤ s.len

theorem lz4_unbounded (n : ℕ) : n % Lz4.Width.unbounded.mod = n := Nat.mod_zero n

theorem EndsInMatch.lz4Decode {seqs : List Lz4.Seq} (hvalid : Lz4.SeqsValid 0 seqs)
    (hpage : (Lz4.expand [] seqs).length = pageBytes) :
    lz4Decode (Lz4.encodeSeqs seqs) = some (Lz4.expand [] seqs) := by
  obtain ⟨hspelled, heq⟩ := Lz4.expand_spelled (w := .unbounded)
    (fun n _ => lz4_unbounded n) seqs [] hvalid (Nat.le_of_eq hpage)
  have hrun := lz4DecodeLoop_spelled [] hspelled (by rw [heq]; exact Nat.le_of_eq hpage)
  rw [List.append_nil, Lz4.Seq.encode_spelled, heq, lz4DecodeLoop_nil] at hrun
  exact hrun.trans (lz4DecodePage_some.2 ⟨hpage, rfl⟩)

/-- With a length no page has, nothing is returned. -/
theorem lz4DecodeLoop_long {lit lo : ℕ} (hlo : lo ≤ 15) {lits : List UInt8}
    (hlits : lits.length = lit % 2 ^ 32) : ∀ {seqs : List Lz4.Spelled} {out : List UInt8},
      Lz4.SpelledValid .word out seqs →
      (Lz4.expandSpelled .word out seqs).length + lits.length ≤ pageBytes →
      (2 ^ 32 ≤ lit ∨ ∃ s ∈ seqs, 2 ^ 32 ≤ s.lit ∨ 2 ^ 32 ≤ s.len) →
        lz4DecodeLoop.run (Lz4.encodeSpelled seqs ++ Lz4.encodeEnd lit lo lits, out) = none := by
  have hpage : pageBytes < 2 ^ 32 := by decide
  intro seqs
  induction seqs with
  | nil =>
    intro out _ _ hlong
    have hlit : 2 ^ 32 ≤ lit := by
      obtain h | ⟨s, hs, -⟩ := hlong
      · exact h
      · exact absurd hs List.not_mem_nil
    have hfull : Lz4.readStep .unbounded pageBytes (Lz4.encodeEnd lit lo lits, out) = _ :=
      Lz4.readStep_full hlo lits (by rw [lz4_unbounded]; omega)
    exact lz4DecodeLoop_inr hfull
  | cons s seqs ih =>
    intro out hvalid hroom hlong
    have hgrow := Lz4.length_le_expandSpelled (w := .word) (s.expand .word out) seqs
    rw [Lz4.expandSpelled] at hroom
    rw [Lz4.Spelled.length_expand] at hgrow
    obtain ⟨hs, hseqs⟩ := hvalid
    have hlits' := hs.lits
    have hsplit : Lz4.encodeSpelled (s :: seqs) ++ Lz4.encodeEnd lit lo lits =
        s.encode ++ (Lz4.encodeSpelled seqs ++ Lz4.encodeEnd lit lo lits) :=
      List.append_assoc _ _ _
    rw [hsplit]
    by_cases hlit : 2 ^ 32 ≤ s.lit
    · have hfull : Lz4.readStep .unbounded pageBytes (_, out) = _ :=
        Lz4.readStep_full (Lz4.nibble_le (s.len - 4)) (s.lits ++ (Lz4.le16 s.off ++
          (Lz4.nibbleExt (s.len - 4) ++ (Lz4.encodeSpelled seqs ++ Lz4.encodeEnd lit lo lits))))
          (show pageBytes < out.length + s.lit % 0 by rw [Nat.mod_zero]; omega)
      unfold Lz4.Spelled.encode
      simp only [List.append_assoc, List.cons_append] at hfull ⊢
      exact lz4DecodeLoop_inr hfull
    have hsame : s.lits.length = s.lit := hlits'.trans (Nat.mod_eq_of_lt (Nat.lt_of_not_le hlit))
    have hread : Lz4.readStep .unbounded pageBytes
        (s.encode ++ (Lz4.encodeSpelled seqs ++ Lz4.encodeEnd lit lo lits), out) = _ :=
      Lz4.readStep_match (hsame.trans (lz4_unbounded _).symm) (by omega) hs.off_pos hs.off_lt
        hs.off_le hs.len_ge
    rw [lz4_unbounded] at hread
    by_cases hlen : 2 ^ 32 ≤ s.len
    · rw [if_pos (by omega)] at hread
      exact lz4DecodeLoop_inr hread
    have hword : s.len % Lz4.Width.word.mod = s.len := Nat.mod_eq_of_lt (Nat.lt_of_not_le hlen)
    have hexpand : s.expand .unbounded out = s.expand .word out := by
      rw [Lz4.Spelled.expand, Lz4.Spelled.expand, lz4_unbounded, hword]
    rw [hword] at hgrow
    rw [if_neg (by omega), hexpand] at hread
    rw [lz4DecodeLoop.run_of_inl (lz4DecodeStep_inl.2 hread)]
    refine ih hseqs hroom (hlong.imp_right fun hlater => ?_)
    obtain ⟨t, ht, hbig⟩ := hlater
    rcases List.mem_cons.1 ht with rfl | ht
    · exact absurd hbig (by omega)
    · exact ⟨t, ht, hbig⟩

/-! ## The decoders -/

/-- `LZ4_Decompress` returns a full page exactly for a block that fills one, lengths wrapping. -/
theorem lz4Decompress_page {mem : Mem Seg} {blk : List UInt8} (hblk : mem.Holds .src 0 blk)
    (page : List UInt8) :
    ((lz4Decompress blk.length mem).1 = pageBytes ∧
      (lz4Decompress blk.length mem).2.mem.bytes .dst 0 pageBytes = page) ↔
        page.length = pageBytes ∧ Nonempty (Lz4.Spells .word [] blk page) := by
  have hreads := lz4Decompress_reads hblk
  cases hrun : (Lz4.readLoop .word pageBytes).run (blk, []) with
  | none =>
    rw [hrun] at hreads
    obtain ⟨m, hm⟩ := hreads
    rw [hm]
    have hzero : ¬ 0 = pageBytes := by decide
    refine ⟨fun h => absurd h.1 hzero, fun ⟨hpage, hspells⟩ => ?_⟩
    have hsome := Lz4.readLoop_iff.2 ⟨Nat.le_of_eq hpage, hspells⟩
    exact nomatch hrun.symm.trans hsome
  | some o =>
    rw [hrun] at hreads
    obtain ⟨m, hm, hmem⟩ := hreads
    rw [hm]
    dsimp only
    constructor
    · rintro ⟨hlen, rfl⟩
      have hbytes : m.mem.bytes .dst 0 pageBytes = o := by
        rw [hmem, ← hlen]
        exact mem.bytes_blit .dst 0 o
      rw [hbytes]
      exact ⟨hlen, (Lz4.readLoop_iff.1 hrun).2⟩
    · rintro ⟨hpage, hspells⟩
      have hsome := Lz4.readLoop_iff.2 ⟨Nat.le_of_eq hpage, hspells⟩
      obtain rfl := Option.some.inj (hrun.symm.trans hsome)
      refine ⟨hpage, ?_⟩
      rw [hmem, ← hpage]
      exact mem.bytes_blit .dst 0 o

/-- The two decoders agree on the bytes `blk`. -/
def Lz4DecodersAgree (mem : Mem Seg) (blk : List UInt8) : Prop :=
  ∀ page, lz4Decode blk = some page ↔
    (lz4Decompress blk.length (mem.blit .src 0 blk)).1 = pageBytes ∧
      (lz4Decompress blk.length (mem.blit .src 0 blk)).2.mem.bytes .dst 0 pageBytes = page

theorem EndsInMatch.disagree {blk : List UInt8} (h : EndsInMatch blk) (mem : Mem Seg) :
    ¬ Lz4DecodersAgree mem blk := by
  obtain ⟨seqs, hvalid, rfl, hpage⟩ := h
  intro hagree
  have htaken := (hagree _).1 (EndsInMatch.lz4Decode hvalid hpage)
  obtain ⟨-, hspells⟩ := (lz4Decompress_page (mem.bytes_blit _ _ _) _).1 htaken
  have hnone := Lz4.readLoop_unended lz4_word hvalid (Nat.le_of_eq hpage)
  have hsome := Lz4.readLoop_iff.2 ⟨Nat.le_of_eq hpage, hspells⟩
  exact nomatch hnone.symm.trans hsome

theorem FillsWrapped.disagree {blk : List UInt8} (h : FillsWrapped blk) (mem : Mem Seg) :
    ¬ Lz4DecodersAgree mem blk := by
  obtain ⟨page, hpage, b, hlong⟩ := h
  intro hagree
  have htaken := (hagree page).2
    ((lz4Decompress_page (mem.bytes_blit _ _ _) _).2 ⟨hpage, ⟨b⟩⟩)
  have hroom := hpage
  rw [b.page_eq, List.length_append] at hroom
  have hnone := lz4DecodeLoop_long b.lo_le b.lits_length b.valid (Nat.le_of_eq hroom) hlong
  rw [← b.bytes] at hnone
  exact nomatch hnone.symm.trans htaken

/-- Elsewhere a block that fills a page is the same to both. -/
theorem lz4_agree {blk : List UInt8} (hmatch : ¬ EndsInMatch blk) (hwrap : ¬ FillsWrapped blk)
    (mem : Mem Seg) : Lz4DecodersAgree mem blk := by
  intro page
  rw [lz4Decompress_page (mem.bytes_blit _ _ _)]
  constructor
  · intro hdecode
    obtain ⟨hpage, hread⟩ := lz4DecodeLoop_some hdecode
    refine ⟨hpage, ?_⟩
    rcases hread with ⟨⟨b⟩⟩ | ⟨seqs, hvalid, rfl, rfl⟩
    · obtain ⟨seqs, lo, lits, hlo, hvalid, rfl, rfl⟩ := b.plain (lz4_unbounded _)
        fun s _ => ⟨lz4_unbounded _, lz4_unbounded _⟩
      have hrun := Lz4.readLoop_seqs lz4_word hlo hvalid (Nat.le_of_eq hpage)
      exact (Lz4.readLoop_iff.1 hrun).2
    · obtain ⟨plain, rfl, hplain, heq⟩ := Lz4.spelled_of_lengths hvalid
        fun s _ => ⟨lz4_unbounded _, lz4_unbounded _⟩
      rw [heq] at hpage
      exact absurd ⟨plain, hplain, Lz4.Seq.encode_spelled plain, hpage⟩ hmatch
  · rintro ⟨hpage, ⟨b⟩⟩
    have hshort : b.lit < 2 ^ 32 ∧ ∀ s ∈ b.seqs, s.lit < 2 ^ 32 ∧ s.len < 2 ^ 32 := by
      refine ⟨Nat.lt_of_not_le fun hlit => hwrap ⟨page, hpage, b, Or.inl hlit⟩, fun s hs => ?_⟩
      exact ⟨Nat.lt_of_not_le fun hlit => hwrap ⟨page, hpage, b, Or.inr ⟨s, hs, Or.inl hlit⟩⟩,
        Nat.lt_of_not_le fun hlen => hwrap ⟨page, hpage, b, Or.inr ⟨s, hs, Or.inr hlen⟩⟩⟩
    obtain ⟨seqs, lo, lits, hlo, hvalid, rfl, rfl⟩ := b.plain (Nat.mod_eq_of_lt hshort.1)
      fun s hs => ⟨Nat.mod_eq_of_lt (hshort.2 s hs).1, Nat.mod_eq_of_lt (hshort.2 s hs).2⟩
    have hrun := Lz4.readLoop_seqs (w := .unbounded) (fun n _ => lz4_unbounded n) hlo hvalid
      (Nat.le_of_eq hpage)
    obtain ⟨-, ⟨u⟩⟩ := Lz4.readLoop_iff.1 hrun
    exact u.lz4Decode hpage

/-- `lz4_decode` and `LZ4_Decompress` agree on all bytes but those that fill the page and end right
after a match, and the blocks that do with a length of 2^32 or more. -/
theorem lz4_decode_agrees_iff (blk : List UInt8) (mem : Mem Seg) :
    Lz4DecodersAgree mem blk ↔ ¬ EndsInMatch blk ∧ ¬ FillsWrapped blk :=
  ⟨fun h => ⟨fun hmatch => hmatch.disagree mem h, fun hwrap => hwrap.disagree mem h⟩,
    fun h => lz4_agree h.1 h.2 mem⟩

/-- One literal and a match of 4095, and the bytes end : `lz4_decode` returns a page, and
`LZ4_Decompress` 0. -/
theorem lz4_decode_takes_unended :
    ¬ Lz4DecodersAgree (fun _ _ => 0) (Lz4.encodeSeqs [⟨[0x41], 1, 4095⟩]) :=
  EndsInMatch.disagree ⟨[⟨[0x41], 1, 4095⟩],
    ⟨⟨by decide, by decide, by decide, by decide⟩, trivial⟩, rfl, by simp [Lz4.expand, pageBytes]⟩ _

end Inboard
