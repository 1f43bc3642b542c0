import Inboard.Loop
import Inboard.Machine
import Mathlib.Data.List.TakeWhile

/-!
# The base the user typed

`XtParseBase` of XTIDEMP.ASM, as it reads : bytes of an ASCIIZ string by offset, with the
offsets it reads in a log. What is in memory past the NUL is arbitrary, so that a routine
that reads it shows. The scan's position carries that it is not past the NUL (`XtScan`),
and it moves on only over a byte that is not the NUL, so `xpbNext` ends.

Beside it what the header promises, over the text alone : `typedBase`, the number after the
first `PORT=`. The code compares with bit 5 set (`or bl, 20h`), which is lower-casing on the
letters, but also takes the byte 1Dh for `=` (`tagged_or`); and it takes up to four digits
without a look at what follows them (`xtParseBase_eq`). `PortTyped` is when neither shows.
-/

set_option linter.unusedSectionVars false

namespace Inboard

/-! ## The string -/

/-- An ASCIIZ string, and the memory after its NUL. -/
structure Asciiz where
  text : List UInt8
  noNul : (0 : UInt8) ∉ text
  after : ℕ → UInt8

namespace Asciiz

variable (s : Asciiz)

/-- The byte at an offset. -/
def byte (i : ℕ) : UInt8 := if i ≤ s.text.length then s.text.getD i 0 else s.after i

/-- `t` is what is left of the string at offset `i`. -/
structure At (i : ℕ) (t : List UInt8) : Prop where
  le : i ≤ s.text.length
  drop : s.text.drop i = t

variable {s} {i : ℕ} {c : UInt8} {t : List UInt8}

theorem at_zero : s.At 0 s.text := ⟨Nat.zero_le _, rfl⟩

theorem At.byte_nil (h : s.At i []) : s.byte i = 0 := by
  have hle := List.drop_eq_nil_iff.1 h.drop
  rw [byte, if_pos h.le, List.getD_eq_getElem?_getD, List.getElem?_eq_none hle, Option.getD_none]

theorem At.getElem? (h : s.At i (c :: t)) : s.text[i]? = some c := by
  rw [← List.head?_drop, h.drop, List.head?_cons]

theorem At.byte_cons (h : s.At i (c :: t)) : s.byte i = c := by
  rw [byte, if_pos h.le, List.getD_eq_getElem?_getD, h.getElem?, Option.getD_some]

theorem At.ne_nul (h : s.At i (c :: t)) : c ≠ 0 := by
  rintro rfl
  exact s.noNul (List.mem_of_getElem? h.getElem?)

theorem At.next (h : s.At i (c :: t)) : s.At (i + 1) t := by
  obtain ⟨hlt, -⟩ := List.getElem?_eq_some_iff.1 h.getElem?
  refine ⟨hlt, ?_⟩
  rw [← List.tail_drop, h.drop, List.tail_cons]

/-- Up to the NUL, a byte that is not it is before it. -/
theorem lt_of_byte_ne (hle : i ≤ s.text.length) (h : s.byte i ≠ 0) : i < s.text.length := by
  refine Nat.lt_of_le_of_ne hle fun heq => h (At.byte_nil ⟨hle, ?_⟩)
  rw [heq, List.drop_length]

/-- No offset read is past the NUL. -/
def InString (s : Asciiz) (log : List ℕ) : Prop := ∀ i ∈ log, i ≤ s.text.length

theorem InString.snoc {log : List ℕ} (hlog : s.InString log) (hle : i ≤ s.text.length) :
    s.InString (log ++ [i]) := by
  intro j hj
  rcases List.mem_append.1 hj with hj | hj
  · exact hlog j hj
  · rwa [List.mem_singleton.1 hj]

end Asciiz

/-! ## `XtParseBase` -/

/-- `XtPortTag` : `port=`. -/
def xtPortTag : List UInt8 := [0x70, 0x6F, 0x72, 0x74, 0x3D]

/-- `xpb_cmp` : the rest of the tag against the string at EDI. EDI after it, if it is the
same. -/
def xpbCmp (s : Asciiz) : List UInt8 → ℕ → List ℕ → Option ℕ × List ℕ
  | [], edi, log => (some edi, log)
  | c :: tag, edi, log =>
    if s.byte edi ||| 0x20 ≠ c then (none, log ++ [edi])
    else xpbCmp s tag (edi + 1) (log ++ [edi])

/-- ESI at `xpb_next`, not past the NUL. -/
structure XtScan (s : Asciiz) where
  esi : ℕ
  le : esi ≤ s.text.length
  log : List ℕ

/-- `xpb_next` and `xpb_advance` : leave at the NUL, or behind the tag. -/
def xpbNextStep (s : Asciiz) (p : XtScan s) : XtScan s ⊕ (Option ℕ × List ℕ) :=
  if h : s.byte p.esi = 0 then .inr (none, p.log ++ [p.esi])
  else
    match xpbCmp s xtPortTag p.esi (p.log ++ [p.esi]) with
    | (some edi, log) => .inr (some edi, log)
    | (none, log) => .inl ⟨p.esi + 1, Asciiz.lt_of_byte_ne p.le h, log⟩

theorem xpbNextStep_decreases {s : Asciiz} {p p' : XtScan s} (h : xpbNextStep s p = .inl p') :
    s.text.length - p'.esi < s.text.length - p.esi := by
  unfold xpbNextStep at h
  split at h
  · simp at h
  · rename_i hne
    have hlt := Asciiz.lt_of_byte_ne p.le hne
    split at h
    · simp at h
    · obtain rfl := Sum.inl.inj h
      exact Nat.sub_lt_sub_left hlt (Nat.lt_succ_self p.esi)

/-- The scan for the tag. -/
def xpbNext (s : Asciiz) : Loop (XtScan s) (Option ℕ × List ℕ) where
  step := xpbNextStep s
  measure p := s.text.length - p.esi
  decreases _ _ h := xpbNextStep_decreases h

/-- `xpb_num` : over an optional `0x`. -/
def xpbNum (s : Asciiz) (esi : ℕ) (log : List ℕ) : ℕ × List ℕ :=
  if s.byte esi ≠ 0x30 then (esi, log ++ [esi])
  else if s.byte (esi + 1) ||| 0x20 ≠ 0x78 then (esi, log ++ [esi] ++ [esi + 1])
  else (esi + 2, log ++ [esi] ++ [esi + 1])

/-- From `xpb_digit` to `xpb_acc` : the value of a hex digit in BL. -/
def xpbNibble (bl : UInt8) : Option UInt8 :=
  if bl < 0x30 then none
  else if bl ≤ 0x39 then some (bl - 0x30)
  else
    let bl := bl ||| 0x20
    if bl < 0x61 then none
    else if 0x66 < bl then none
    else some (bl - (0x61 - 10))

/-- `xpb_digit`, with `left` = 4 − ECX. EAX, ECX and the log at `xpb_end`. -/
def xpbDigit (s : Asciiz) : (left : ℕ) → ℕ → UInt32 → ℕ → List ℕ → UInt32 × ℕ × List ℕ
  | 0, _, eax, ecx, log => (eax, ecx, log)
  | left + 1, esi, eax, ecx, log =>
    match xpbNibble (s.byte esi) with
    | none => (eax, ecx, log ++ [esi])
    | some bl => xpbDigit s left (esi + 1) (eax <<< 4 ||| bl.toUInt32) (ecx + 1) (log ++ [esi])

/-- `XtParseBase` : EAX, and the offsets read. No string is NULL. -/
def xtParseBase : Option Asciiz → UInt32 × List ℕ
  | none => (0, [])
  | some s =>
    match (xpbNext s).run ⟨0, Nat.zero_le _, []⟩ with
    | (none, log) => (0, log)
    | (some edi, log) =>
      let n := xpbNum s edi log
      let r := xpbDigit s 4 n.1 0 0 n.2
      (if r.2.1 ≠ 0 then r.1 else 0, r.2.2)

/-! ## What the header promises -/

/-- ASCII lower case. -/
def lower (c : UInt8) : UInt8 := if 0x41 ≤ c ∧ c ≤ 0x5A then c + 32 else c

/-- The tag is at the start of `l`, up to `f`. -/
abbrev Tagged (f : UInt8 → UInt8) (l : List UInt8) : Prop := (l.take 5).map f = xtPortTag

/-- The text from the first tag on. -/
def firstTag (f : UInt8 → UInt8) : List UInt8 → Option (List UInt8)
  | [] => none
  | c :: t => if Tagged f (c :: t) then some (c :: t) else firstTag f t

/-- The value of a hex digit. -/
def hexDigit (c : UInt8) : Option ℕ :=
  if 0x30 ≤ c ∧ c ≤ 0x39 then some (c.toNat - 0x30)
  else if 0x61 ≤ lower c ∧ lower c ≤ 0x66 then some ((lower c).toNat - 0x61 + 10)
  else none

/-- The number a list of hex digits is, after the digits of `v`. -/
def hexValue (v : ℕ) (ds : List UInt8) : ℕ :=
  ds.foldl (fun v c => v * 16 + (hexDigit c).getD 0) v

/-- The text after an optional `0x`. -/
def dropPrefix : List UInt8 → List UInt8
  | 0x30 :: c :: t => if lower c = 0x78 then t else 0x30 :: c :: t
  | t => t

/-- The hex digits at the start of the text. -/
def digits (t : List UInt8) : List UInt8 := t.takeWhile fun c => (hexDigit c).isSome

/-- The text is a number : an optional `0x`, one to four hex digits, and the end of the
string or a separator. -/
def portNumber (sep : UInt8 → Bool) (t : List UInt8) : Option ℕ :=
  let t := dropPrefix t
  if 1 ≤ (digits t).length ∧ (digits t).length ≤ 4 ∧ (t.drop (digits t).length).head?.all sep then
    some (hexValue 0 (digits t))
  else none

/-- The base a string carries : the number after the first `PORT=`, in any case, or 0. -/
def typedBase (sep : UInt8 → Bool) (text : List UInt8) : ℕ :=
  match firstTag lower text with
  | none => 0
  | some t => (portNumber sep (t.drop 5)).getD 0

/-! ## Bytes -/

/-- What setting bit 5 and reading a hex digit make of a byte. -/
theorem byte_facts : ∀ c : UInt8,
    (xtPortTag.all fun d => decide (lower c = d → c ||| 0x20 = d)) = true ∧
    ([0x70, 0x6F, 0x72, 0x74, 0x78].all fun d => decide (c ||| 0x20 = d → lower c = d)) = true ∧
    (lower c = 0x78 → c ||| 0x20 = 0x78) ∧ (c ||| 0x20 = 0x3D ↔ c = 0x3D ∨ c = 0x1D) ∧
    (xpbNibble c).map UInt8.toNat = hexDigit c ∧ (hexDigit c).getD 0 < 16 ∧
    ((hexDigit c).isSome → (hexDigit c).getD 0 = 0 → c = 0x30) :=
  forall_byte (by decide +kernel)

/-- Setting bit 5 is lower-casing, where the result is a letter of the tag or the `x`. -/
theorem or_of_lower (c d : UInt8) (hd : d ∈ xtPortTag) (h : lower c = d) : c ||| 0x20 = d :=
  of_decide_eq_true (List.all_eq_true.1 (byte_facts c).1 d hd) h

theorem lower_of_or (c d : UInt8) (hd : d ∈ [0x70, 0x6F, 0x72, 0x74, 0x78])
    (h : c ||| 0x20 = d) : lower c = d :=
  of_decide_eq_true (List.all_eq_true.1 (byte_facts c).2.1 d hd) h

theorem or_of_lower_x (c : UInt8) : lower c = 0x78 → c ||| 0x20 = 0x78 :=
  (byte_facts c).2.2.1

theorem or_eq_equals (c : UInt8) : c ||| 0x20 = 0x3D ↔ c = 0x3D ∨ c = 0x1D :=
  (byte_facts c).2.2.2.1

theorem xpbNibble_toNat (c : UInt8) : (xpbNibble c).map UInt8.toNat = hexDigit c :=
  (byte_facts c).2.2.2.2.1

theorem hexDigit_lt (c : UInt8) : (hexDigit c).getD 0 < 16 :=
  (byte_facts c).2.2.2.2.2.1

theorem hexDigit_eq_zero (c : UInt8) :
    (hexDigit c).isSome → (hexDigit c).getD 0 = 0 → c = 0x30 :=
  (byte_facts c).2.2.2.2.2.2

/-- The tag as it stands is the tag with bit 5 set. -/
theorem Tagged.or {l : List UInt8} (h : Tagged lower l) : Tagged (· ||| 0x20) l := by
  unfold Tagged at h ⊢
  conv_rhs => rw [← h]
  refine List.map_congr_left fun c hc => ?_
  have hmem : lower c ∈ xtPortTag := by
    rw [← h]
    exact List.mem_map_of_mem hc
  exact or_of_lower c _ hmem rfl

/-- With bit 5 set only `=` is not the tag as it stands : it may also be 1Dh. -/
theorem tagged_or {l : List UInt8} (h : Tagged (· ||| 0x20) l) :
    l[4]? = some 0x3D ∧ Tagged lower l ∨ l[4]? = some 0x1D := by
  rcases l with _ | ⟨c₀, _ | ⟨c₁, _ | ⟨c₂, _ | ⟨c₃, _ | ⟨c₄, t⟩⟩⟩⟩⟩ <;>
    simp only [Tagged, List.take_succ_cons, List.take_zero, List.take_nil, List.map_cons,
      List.map_nil, xtPortTag, List.cons.injEq, reduceCtorEq, and_true, and_false] at h
  obtain ⟨h₀, h₁, h₂, h₃, h₄⟩ := h
  rcases (or_eq_equals c₄).1 h₄ with rfl | rfl
  · refine .inl ⟨rfl, ?_⟩
    simp only [Tagged, List.take_succ_cons, List.take_zero, List.map_cons, List.map_nil,
      lower_of_or c₀ _ (by simp) h₀, lower_of_or c₁ _ (by simp) h₁,
      lower_of_or c₂ _ (by simp) h₂, lower_of_or c₃ _ (by simp) h₃]
    decide
  · exact .inr rfl

theorem tagged_of_firstTag {f : UInt8 → UInt8} :
    ∀ {l u : List UInt8}, firstTag f l = some u → Tagged f u
  | c :: t, u, h => by
    unfold firstTag at h
    split_ifs at h with hc
    · rwa [← Option.some.inj h]
    · exact tagged_of_firstTag h

theorem firstTag_lower_none :
    ∀ {l : List UInt8}, firstTag (· ||| 0x20) l = none → firstTag lower l = none
  | [], _ => rfl
  | c :: t, h => by
    unfold firstTag at h ⊢
    split_ifs at h with hc
    rw [if_neg fun hl => hc hl.or, firstTag_lower_none h]

/-- The first tag with bit 5 set, if it has its `=`, is the first tag. -/
theorem firstTag_lower_some : ∀ {l u : List UInt8}, firstTag (· ||| 0x20) l = some u →
    Tagged lower u → firstTag lower l = some u
  | c :: t, u, h, hu => by
    unfold firstTag at h ⊢
    split_ifs at h with hc
    · obtain rfl := Option.some.inj h
      rw [if_pos hu]
    · rw [if_neg fun hl => hc hl.or, firstTag_lower_some h hu]

/-! ## What the code computes -/

/-- The hex digits the code takes : the first four. -/
def leadDigits (t : List UInt8) : List UInt8 := (digits (dropPrefix t)).take 4

section Code

variable {s : Asciiz} {i : ℕ} {t : List UInt8} {log : List ℕ}

theorem xpbCmp_spec : ∀ (tag : List UInt8) {i : ℕ} {t : List UInt8} {log : List ℕ}, s.At i t →
    s.InString log → 0x20 ∉ tag →
      s.InString (xpbCmp s tag i log).2 ∧
        (((t.take tag.length).map (· ||| 0x20) = tag ∧
            (xpbCmp s tag i log).1 = some (i + tag.length) ∧
            s.At (i + tag.length) (t.drop tag.length)) ∨
          ((t.take tag.length).map (· ||| 0x20) ≠ tag ∧ (xpbCmp s tag i log).1 = none))
  | [], i, t, log, hat, hlog, _ => ⟨hlog, .inl ⟨by simp, rfl, by simpa using hat⟩⟩
  | c :: tag, i, [], log, hat, hlog, htag => by
    have hne : s.byte i ||| 0x20 ≠ c := by
      rw [hat.byte_nil]
      rintro rfl
      exact htag (by simp)
    unfold xpbCmp
    rw [if_pos hne]
    exact ⟨hlog.snoc hat.le, .inr ⟨by simp, rfl⟩⟩
  | c :: tag, i, d :: t, log, hat, hlog, htag => by
    unfold xpbCmp
    rw [hat.byte_cons]
    by_cases hd : d ||| 0x20 = c
    · rw [if_neg (not_not_intro hd)]
      have ih := xpbCmp_spec tag hat.next (hlog.snoc hat.le) fun h => htag
          (List.mem_cons_of_mem _ h)
      simpa [hd, Nat.add_assoc, Nat.add_comm 1] using ih
    · rw [if_pos hd]
      exact ⟨hlog.snoc hat.le, .inr ⟨by simp [hd], rfl⟩⟩

/-- The scan leaves behind the first tag with bit 5 set. -/
theorem xpbNext_spec : ∀ (t : List UInt8) (p : XtScan s), s.At p.esi t → s.InString p.log →
    s.InString ((xpbNext s).run p).2 ∧
      match firstTag (· ||| 0x20) t with
      | none => ((xpbNext s).run p).1 = none
      | some u => ∃ edi, ((xpbNext s).run p).1 = some edi ∧ s.At edi (u.drop 5)
  | [], p, hat, hlog => by
    have hstep : (xpbNext s).step p = .inr (none, p.log ++ [p.esi]) := by
      show xpbNextStep s p = _
      rw [xpbNextStep, dif_pos hat.byte_nil]
    rw [(xpbNext s).run_of_inr hstep]
    exact ⟨hlog.snoc hat.le, rfl⟩
  | c :: t, p, hat, hlog => by
    have hne : s.byte p.esi ≠ 0 := by
      rw [hat.byte_cons]
      exact hat.ne_nul
    have hcmp := xpbCmp_spec xtPortTag hat (hlog.snoc hat.le) (by decide)
    have hstep : (xpbNext s).step p = xpbNextStep s p := rfl
    rw [xpbNextStep, dif_neg hne] at hstep
    generalize xpbCmp s xtPortTag p.esi (p.log ++ [p.esi]) = r at hcmp hstep
    obtain ⟨hlog', ⟨htag, hr, hat'⟩ | ⟨htag, hr⟩⟩ := hcmp
    · obtain ⟨o, l⟩ := r
      obtain rfl : o = _ := hr
      have htag' : Tagged (· ||| 0x20) (c :: t) := htag
      rw [(xpbNext s).run_of_inr hstep, firstTag, if_pos htag']
      exact ⟨hlog', _, rfl, hat'⟩
    · obtain ⟨o, l⟩ := r
      obtain rfl : o = _ := hr
      have htag' : ¬ Tagged (· ||| 0x20) (c :: t) := htag
      rw [(xpbNext s).run_of_inl hstep, firstTag, if_neg htag']
      exact xpbNext_spec t _ hat.next hlog'

theorem dropPrefix_of_ne {c : UInt8} (h : c ≠ 0x30) : dropPrefix (c :: t) = c :: t := by
  unfold dropPrefix
  split
  · rename_i heq
    exact absurd (List.cons.inj heq).1 h
  · rfl

theorem xpbNum_spec (hat : s.At i t) (hlog : s.InString log) :
    s.InString (xpbNum s i log).2 ∧ s.At (xpbNum s i log).1 (dropPrefix t) := by
  have hlog' := hlog.snoc hat.le
  unfold xpbNum
  rcases t with _ | ⟨c, t⟩
  · rw [hat.byte_nil, if_pos (by decide)]
    exact ⟨hlog', hat⟩
  rw [hat.byte_cons]
  by_cases hc : c = 0x30
  · rw [if_neg (not_not_intro hc)]
    subst hc
    rcases t with _ | ⟨d, t⟩
    · rw [hat.next.byte_nil, if_pos (by decide)]
      exact ⟨hlog'.snoc hat.next.le, hat⟩
    rw [hat.next.byte_cons]
    by_cases hd : d ||| 0x20 = 0x78
    · rw [if_neg (not_not_intro hd)]
      refine ⟨hlog'.snoc hat.next.le, ?_⟩
      rw [dropPrefix, if_pos (lower_of_or d _ (by simp) hd)]
      exact hat.next.next
    · rw [if_pos hd]
      refine ⟨hlog'.snoc hat.next.le, ?_⟩
      rw [dropPrefix, if_neg fun h => hd (or_of_lower_x d h)]
      exact hat
  · rw [if_pos hc, dropPrefix_of_ne hc]
    exact ⟨hlog', hat⟩

theorem hexValue_cons (v : ℕ) (c : UInt8) (ds : List UInt8) :
    hexValue v (c :: ds) = hexValue (v * 16 + (hexDigit c).getD 0) ds := rfl

/-- `shl eax, 4` and `or` add a digit, while there is room for it. -/
theorem shl_or_toNat {eax : UInt32} {bl : UInt8} (heax : eax.toNat < 2 ^ 28) (hbl : bl.toNat < 16) :
    (eax <<< 4 ||| bl.toUInt32).toNat = eax.toNat * 16 + bl.toNat := by
  rw [UInt32.toNat_or, UInt32.toNat_shiftLeft, UInt8.toNat_toUInt32]
  have hshift : eax.toNat <<< 4 % 2 ^ 32 = eax.toNat <<< 4 := by
    rw [Nat.shiftLeft_eq]
    omega
  have hfour : (4 : UInt32).toNat % 32 = 4 := rfl
  rw [hfour, hshift, ← Nat.shiftLeft_add_eq_or_of_lt (by omega : bl.toNat < 2 ^ 4),
      Nat.shiftLeft_eq]

/-- The digits are taken while they are digits and there are fewer than four. -/
theorem xpbDigit_spec : ∀ (left : ℕ) {i : ℕ} {t : List UInt8} (eax : UInt32) (ecx : ℕ)
    {log : List ℕ}, s.At i t → s.InString log → eax.toNat < 16 ^ (8 - left) → left ≤ 8 →
      s.InString (xpbDigit s left i eax ecx log).2.2 ∧
        (xpbDigit s left i eax ecx log).1.toNat = hexValue eax.toNat ((digits t).take left) ∧
        (xpbDigit s left i eax ecx log).2.1 = ecx + ((digits t).take left).length
  | 0, i, t, eax, ecx, log, hat, hlog, _, _ => by
    simpa [xpbDigit, hexValue] using hlog
  | left + 1, i, [], eax, ecx, log, hat, hlog, _, _ => by
    have hnone : xpbNibble 0 = none := rfl
    simpa [xpbDigit, hat.byte_nil, hnone, digits, hexValue] using hlog.snoc hat.le
  | left + 1, i, c :: t, eax, ecx, log, hat, hlog, hlt, hle => by
    have hnib := xpbNibble_toNat c
    have hdig := hexDigit_lt c
    unfold xpbDigit
    rw [hat.byte_cons]
    cases hc : xpbNibble c with
    | none =>
      rw [hc] at hnib
      have hd : digits (c :: t) = [] := by simp [digits, ← hnib]
      simpa [hd, hexValue] using hlog.snoc hat.le
    | some bl =>
      rw [hc, Option.map_some] at hnib
      have hd : digits (c :: t) = c :: digits t := by simp [digits, ← hnib]
      rw [← hnib, Option.getD_some] at hdig
      have hpow : 16 ^ (8 - left) = 16 ^ (8 - (left + 1)) * 16 := by
        rw [← Nat.pow_succ]
        congr 1
        omega
      have hroom : eax.toNat < 2 ^ 28 := by
        refine Nat.lt_of_lt_of_le hlt ?_
        calc 16 ^ (8 - (left + 1)) ≤ 16 ^ 7 := Nat.pow_le_pow_right (by decide) (by omega)
          _ = 2 ^ 28 := rfl
      have hval := shl_or_toNat hroom hdig
      dsimp only
      obtain ⟨hlog', heax, hecx⟩ := xpbDigit_spec left (eax <<< 4 ||| bl.toUInt32) (ecx + 1)
        hat.next (hlog.snoc hat.le) (by rw [hval]; omega) (by omega)
      refine ⟨hlog', ?_, ?_⟩
      · rw [heax, hval, hd, List.take_succ_cons, hexValue_cons, ← hnib, Option.getD_some]
      · rw [hecx, hd, List.take_succ_cons, List.length_cons]
        omega

/-- `XtParseBase` reads up to the NUL, and gives the number its first four digits are. -/
theorem xtParseBase_eq (s : Asciiz) :
    s.InString (xtParseBase (some s)).2 ∧ (xtParseBase (some s)).1.toNat =
      match firstTag (· ||| 0x20) s.text with
      | none => 0
      | some u => hexValue 0 (leadDigits (u.drop 5)) := by
  obtain ⟨hlog, hscan⟩ := xpbNext_spec s.text ⟨0, Nat.zero_le _, []⟩ Asciiz.at_zero (by
    intro i hi
    simp at hi)
  unfold xtParseBase
  dsimp only
  generalize (xpbNext s).run ⟨0, Nat.zero_le _, []⟩ = r at hlog hscan ⊢
  obtain ⟨o, log⟩ := r
  cases htag : firstTag (· ||| 0x20) s.text with
  | none =>
    rw [htag] at hscan
    obtain rfl : o = none := hscan
    exact ⟨hlog, rfl⟩
  | some u =>
    rw [htag] at hscan
    obtain ⟨edi, ho, hat⟩ := hscan
    obtain rfl : o = some edi := ho
    obtain ⟨hlog', hat'⟩ := xpbNum_spec hat hlog
    obtain ⟨hlog'', heax, hecx⟩ := xpbDigit_spec 4 0 0 hat' hlog' (by decide) (by decide)
    refine ⟨hlog'', ?_⟩
    dsimp only
    rw [Nat.zero_add] at hecx
    rw [hecx, leadDigits]
    split_ifs with hlen
    · exact heax
    · rw [List.length_eq_zero_iff.1 (not_not.1 hlen)]
      rfl

end Code

/-! ## Against the header -/

/-- Where the code gives the base the string carries. After a first tag with its `=`, there
is a number, or the first four digits are zeros; after one with 1Dh for the `=`, its first
four digits happen to be the base. -/
def PortTyped (sep : UInt8 → Bool) (text : List UInt8) : Prop :=
  match firstTag (· ||| 0x20) text with
  | none => True
  | some u =>
    if u[4]? = some 0x3D then
      (portNumber sep (u.drop 5)).isSome ∨ ∀ c ∈ leadDigits (u.drop 5), c = 0x30
    else hexValue 0 (leadDigits (u.drop 5)) = typedBase sep text

theorem hexValue_ge (v : ℕ) : ∀ ds : List UInt8, v ≤ hexValue v ds
  | [] => Nat.le_refl v
  | c :: ds => by
    have h := hexValue_ge (v * 16 + (hexDigit c).getD 0) ds
    rw [hexValue_cons]
    omega

theorem hexValue_eq_zero : ∀ ds : List UInt8, (∀ c ∈ ds, (hexDigit c).isSome) →
    (hexValue 0 ds = 0 ↔ ∀ c ∈ ds, c = 0x30)
  | [], _ => by simp [hexValue]
  | c :: ds, hds => by
    have ih := hexValue_eq_zero ds fun d hd => hds d (List.mem_cons_of_mem _ hd)
    rw [hexValue_cons, Nat.zero_mul, Nat.zero_add, List.forall_mem_cons]
    constructor
    · intro h
      have hge := hexValue_ge ((hexDigit c).getD 0) ds
      have hc : (hexDigit c).getD 0 = 0 := by omega
      rw [hc] at h
      exact ⟨hexDigit_eq_zero c (hds c List.mem_cons_self) hc, ih.1 h⟩
    · rintro ⟨rfl, h⟩
      exact ih.2 h

theorem isSome_leadDigits {t : List UInt8} : ∀ c ∈ leadDigits t, (hexDigit c).isSome := by
  intro c hc
  have hmem := List.mem_of_mem_take hc
  exact List.mem_takeWhile_imp (p := fun c => (hexDigit c).isSome) hmem

/-- A number is what its first four digits are. -/
theorem portNumber_eq (sep : UInt8 → Bool) {t : List UInt8} (h : (portNumber sep t).isSome) :
    portNumber sep t = some (hexValue 0 (leadDigits t)) := by
  unfold portNumber at h ⊢
  dsimp only at h ⊢
  split_ifs at h ⊢ with hif
  · rw [leadDigits, List.take_of_length_le hif.2.1]
  · simp at h

/-- For every string `XtParseBase` ends and reads up to its NUL at most, and it gives the
base the string carries exactly where `PortTyped`. -/
theorem xtParseBase_typed (sep : UInt8 → Bool) (s : Asciiz) :
    s.InString (xtParseBase (some s)).2 ∧
      ((xtParseBase (some s)).1.toNat = typedBase sep s.text ↔ PortTyped sep s.text) := by
  obtain ⟨hlog, heq⟩ := xtParseBase_eq s
  refine ⟨hlog, ?_⟩
  rw [heq]
  unfold PortTyped
  cases htag : firstTag (· ||| 0x20) s.text with
  | none => simp [typedBase, firstTag_lower_none htag]
  | some u =>
    dsimp only
    split_ifs with hu
    · have hlow : Tagged lower u := by
        rcases tagged_or (tagged_of_firstTag htag) with ⟨-, hlow⟩ | h1D
        · exact hlow
        · rw [hu] at h1D
          simp at h1D
      rw [typedBase, firstTag_lower_some htag hlow]
      dsimp only
      cases hnum : portNumber sep (u.drop 5) with
      | none =>
        rw [Option.getD_none, hexValue_eq_zero _ isSome_leadDigits]
        simp
      | some n =>
        have hval := portNumber_eq sep (t := u.drop 5) (by rw [hnum]; rfl)
        obtain rfl := Option.some.inj (hnum.symm.trans hval)
        simp
    · exact Iff.rfl

/-- `PORT=30000`, a digit too many : the code takes 3000h of it. -/
def fiveDigits : Asciiz where
  text := [0x50, 0x4F, 0x52, 0x54, 0x3D, 0x33, 0x30, 0x30, 0x30, 0x30]
  noNul := by decide
  after _ := 0

/-- No choice of separators makes the header true of every string. -/
theorem not_xtParseBase_typed :
    ¬ ∃ sep, ∀ s : Asciiz, (xtParseBase (some s)).1.toNat = typedBase sep s.text := by
  rintro ⟨sep, h⟩
  have hcode : (xtParseBase (some fiveDigits)).1.toNat = 0x3000 := by decide +kernel
  have htag : firstTag lower fiveDigits.text = some fiveDigits.text := by decide +kernel
  have hdigits : ¬ (digits (dropPrefix (fiveDigits.text.drop 5))).length ≤ 4 := by decide +kernel
  have hnone : portNumber sep (fiveDigits.text.drop 5) = none := by
    rw [portNumber, if_neg fun hif => hdigits hif.2.1]
  have htyped : typedBase sep fiveDigits.text = 0 := by
    rw [typedBase, htag]
    dsimp only
    rw [hnone]
    rfl
  have heq := h fiveDigits
  rw [hcode, htyped] at heq
  exact absurd heq (by decide)

end Inboard
