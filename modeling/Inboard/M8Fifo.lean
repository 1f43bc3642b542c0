import Inboard.M8Engine
import Mathlib.Tactic.IntervalCases

/-!
# The command FIFO's ledger

The writes outstanding, counted from what passed through the ports : each is still queued on top of
the entries that the last status read showed occupied. `Owes` compares the count with the room that
the driver remembers : so many writes made that the room does not show yet, and so much room at
least. Its rules follow the driver's own steps, and a driver that stays within them never writes
with sixteen outstanding. Once a wait has run out (`RanOut`) nothing more is claimed.
-/

set_option linter.unusedSectionVars false

namespace Inboard

/-! ## The count -/

/-- The writes outstanding. Unless `strict`, a read's data and an abort show the FIFO empty, and
host data through PIX_TRANS takes no entry. -/
def outstanding (strict : Bool) : List EngineEv → ℕ
  | [] => M8_FIFO_DEPTH
  | .write p _ :: es =>
    if strict = false ∧ p = M8_PIX_TRANS then outstanding strict es else outstanding strict es + 1
  | .fifo occ :: _ => occ
  | .ready :: es => if strict = true then outstanding strict es else 0
  | .abort :: es => if strict = true then outstanding strict es else 0
  | .reset :: _ => 0
  | .late :: es => outstanding strict es

/-- No write was made with sixteen outstanding. -/
def NeverOverrun (strict : Bool) : List EngineEv → Prop
  | [] => True
  | .write p _ :: es =>
    (strict = true ∨ p ≠ M8_PIX_TRANS → outstanding strict es < M8_FIFO_DEPTH) ∧
      NeverOverrun strict es
  | _ :: es => NeverOverrun strict es

instance instDecidableNeverOverrun (strict : Bool) : DecidablePred (NeverOverrun strict)
  | [] => inferInstanceAs (Decidable True)
  | .write _ _ :: es =>
    haveI := instDecidableNeverOverrun strict es
    inferInstanceAs (Decidable (_ ∧ _))
  | .fifo _ :: es => instDecidableNeverOverrun strict es
  | .ready :: es => instDecidableNeverOverrun strict es
  | .abort :: es => instDecidableNeverOverrun strict es
  | .reset :: es => instDecidableNeverOverrun strict es
  | .late :: es => instDecidableNeverOverrun strict es

/-- The reads of the FIFO's status write nothing. -/
@[simp]
theorem neverOverrun_polls (strict : Bool) (occs : List (Fin 17)) (es : List EngineEv) :
    NeverOverrun strict (occs.map .fifo ++ es) ↔ NeverOverrun strict es := by
  induction occs with
  | nil => simp
  | cons occ occs ih => simpa [NeverOverrun] using ih

/-- A wait has run out. -/
def RanOut (es : List EngineEv) : Prop := .reset ∈ es ∨ .late ∈ es

theorem RanOut.append {es : List EngineEv} (h : RanOut es) (new : List EngineEv) :
    RanOut (new ++ es) :=
  h.imp (List.mem_append_right _) (List.mem_append_right _)

theorem RanOut.cons {es : List EngineEv} (h : RanOut es) (e : EngineEv) : RanOut (e :: es) :=
  h.append [e]

/-! ## Status words -/

/-- The bit that a wait for `n` entries polls. -/
theorem fifoWord_need (occ : Fin 17) {n : ℕ} (hn : n ≤ 15) :
    fifoWord occ &&& (0x8000 >>> n) = 0 ↔ (occ : ℕ) + n ≤ 15 := by
  revert occ
  interval_cases n <;> decide

theorem freeEntries_fifoWord (occ : Fin 17) :
    freeEntries (fifoWord occ) M8_FIFO_DEPTH 0x8000 = 16 - occ := by
  revert occ
  decide

theorem fifoWord_eq_zero (occ : Fin 17) : fifoWord occ = 0 ↔ (occ : ℕ) = 0 := by
  revert occ
  decide

/-! ## The ledger -/

/-- The ledger of a run in which no wait has run out : at most `k` writes that the room does not
show yet, and `a` entries of room, counted across calls (`ok`) or within this one. -/
structure Ledger (ok : Bool) (k a : ℤ) (s : Hw) : Prop where
  never : NeverOverrun false s.trace
  flag : s.roomOk = ok
  path : s.dpOk = true → ok = true
  owed : (outstanding false s.trace : ℤ) + s.room ≤ 15 + k
  room : a ≤ s.room

/-- The ledger, until a wait runs out. -/
def Owes (ok : Bool) (k a : ℤ) (s : Hw) : Prop := RanOut s.trace ∨ Ledger ok k a s

/-- What holds between calls : room counted across them is room that is there, and a data path that
is held comes with counted room. -/
structure Quiet (s : Hw) : Prop where
  never : NeverOverrun false s.trace
  path : s.dpOk = true → s.roomOk = true
  owed : s.roomOk = true → (outstanding false s.trace : ℤ) + s.room ≤ 15

/-- What holds between calls, until a wait runs out. -/
def Kept (s : Hw) : Prop := RanOut s.trace ∨ Quiet s

/-- What holds after a call that leaves its room counted. -/
def Counted (s : Hw) : Prop := RanOut s.trace ∨ Quiet s ∧ s.roomOk = true

/-- No overrun so far, whatever the room says. -/
def Safe (s : Hw) : Prop := RanOut s.trace ∨ NeverOverrun false s.trace

theorem Counted.kept {s : Hw} (h : Counted s) : Kept s := h.imp_right And.left

theorem Kept.safe {s : Hw} (h : Kept s) : Safe s := h.imp_right Quiet.never

theorem Kept.counted {s : Hw} (h : Kept s) (hs : s.roomOk = true) : Counted s :=
  h.imp_right fun h => ⟨h, hs⟩

theorem Kept.counted_of_path {s : Hw} (h : Kept s) (hs : s.dpOk = true) : Counted s :=
  h.imp_right fun h => ⟨h, h.path hs⟩

theorem Counted.congr {s t : Hw} (h : Counted s) (htr : t.trace = s.trace) (hro : t.room = s.room)
    (hok : t.roomOk = s.roomOk) : Counted t := by
  refine h.imp (fun h => htr ▸ h) fun h => ?_
  have hok' : t.roomOk = true := hok.trans h.2
  exact ⟨⟨htr ▸ h.1.never, fun _ => hok', fun _ => htr ▸ hro ▸ h.1.owed h.2⟩, hok'⟩

theorem Counted.owes {s : Hw} (h : Counted s) : Owes true 0 s.room s :=
  h.imp_right fun h => ⟨h.1.never, h.2, fun _ => rfl, by have := h.1.owed h.2; omega, le_rfl⟩

namespace Owes

variable {ok : Bool} {k a : ℤ} {s : Hw}

theorem safe (h : Owes ok k a s) : Safe s := h.imp_right Ledger.never

theorem mono {k' a' : ℤ} (h : Owes ok k a s) (hk : k ≤ k') (ha : a' ≤ a) : Owes ok k' a' s :=
  h.imp_right fun h =>
    ⟨h.never, h.flag, h.path, h.owed.trans (by omega), ha.trans h.room⟩

/-- What `Owes` speaks of is all that it needs. -/
theorem congr {t : Hw} (h : Owes ok k a s) (htr : t.trace = s.trace) (hro : t.room = s.room)
    (hok : t.roomOk = s.roomOk) (hdp : t.dpOk = s.dpOk) : Owes ok k a t := by
  refine h.imp (fun h => htr ▸ h) fun h => ⟨htr ▸ h.never, hok.trans h.flag, ?_, ?_, hro ▸ h.room⟩
  · exact fun ht => h.path (hdp ▸ ht)
  · rw [htr, hro]
    exact h.owed

theorem counted (h : Owes true k a s) (hk : k ≤ 0) : Counted s :=
  h.imp_right fun h =>
    ⟨⟨h.never, fun _ => h.flag, fun _ => h.owed.trans (by omega)⟩, h.flag⟩

theorem kept_counted (h : Owes true k a s) (hk : k ≤ 0) : Kept s := (h.counted hk).kept

/-- A call that does not leave its room counted may leave writes unspent. -/
theorem kept (h : Owes false k a s) : Kept s :=
  h.imp_right fun h =>
    ⟨h.never, fun hd => absurd (h.path hd) (by simp), fun ho => by simp [h.flag] at ho⟩

/-! ## Writes -/

/-- A write fits while the room shows more than is owed. -/
theorem outpw (h : Owes ok k a s) (hk : k ≤ a) (p : ℕ) (v : ℤ) :
    Owes ok (k + 1) a (s.outpw p v) := by
  refine h.imp (·.cons _) fun h => ⟨⟨fun _ => ?_, h.never⟩, h.flag, h.path, ?_, h.room⟩
  · have := h.owed
    have := h.room
    show _ < (16 : ℕ)
    omega
  · have := h.owed
    simp only [Hw.outpw, outstanding]
    split_ifs <;> push_cast <;> omega

theorem outs {ok : Bool} {a : ℤ} : ∀ (ws : List (ℕ × ℤ)) {k : ℤ} {s : Hw}, Owes ok k a s →
    k + ws.length ≤ a + 1 → Owes ok (k + ws.length) a (s.outs ws)
  | [], _, _, h, _ => by simpa [Hw.outs] using h
  | w :: ws, k, s, h, hk => by
    simp only [List.length_cons, Nat.cast_add, Nat.cast_one] at hk ⊢
    have h1 := outs ws (h.outpw (by omega) w.1 w.2) (by omega)
    rwa [show k + 1 + (ws.length : ℤ) = k + (ws.length + 1) by omega] at h1

/-- Host data takes no entry. -/
theorem outsw {ok : Bool} {k a : ℤ} : ∀ (ws : List ℤ) {s : Hw}, Owes ok k a s →
    Owes ok k a (s.outsw ws)
  | [], _, h => h
  | v :: ws, s, h => by
    refine outsw ws (s := s.outpw M8_PIX_TRANS v) (h.imp (·.cons _) fun h => ?_)
    refine ⟨⟨fun hp => absurd rfl (hp.resolve_left nofun), h.never⟩, h.flag, h.path, ?_, h.room⟩
    simpa [Hw.outpw, outstanding] using h.owed

theorem outMM (h : Owes ok k a s) (hk : k ≤ a) (p : ℕ) (v : ℤ) : Owes ok (k + 1) a (s.outMM p v) :=
  outpw (s := s.mmForget) (h.congr rfl rfl rfl rfl) hk p v

theorem outSize (h : Owes ok k a s) (hk : k + 1 ≤ a) (x y : ℤ) :
    Owes ok (k + 2) a (s.outSize x y) := by
  unfold Hw.outSize
  split_ifs
  · exact (outs [(M8_MAJ_AXIS_PCNT, x - 1), (M8_MULTIFUNC_CNTL, y - 1)] h
      (by simp only [List.length_cons, List.length_nil]; omega)).congr rfl rfl rfl rfl
  · exact h.mono (by omega) le_rfl

theorem spend (h : Owes ok k a s) (n : ℤ) : Owes ok (k - n) (a - n) (s.spend n) :=
  h.imp_right fun h => ⟨h.never, h.flag, h.path,
    by have := h.owed; show (outstanding false s.trace : ℤ) + (s.room - n) ≤ _; omega,
    sub_le_sub_right h.room n⟩

theorem shForget (h : Owes ok k a s) (r : ShReg) : Owes ok k a (s.shForget r) :=
  h.congr rfl rfl rfl rfl

end Owes

/-! ## Waits -/

section Waits

variable (env : EngineEnv)

theorem ranOut_outs : ∀ (ws : List (ℕ × ℤ)) {s : Hw}, RanOut s.trace → RanOut (s.outs ws).trace
  | [], _, h => h
  | w :: ws, s, h => ranOut_outs ws (s := s.outpw w.1 w.2) (h.cons _)

theorem ranOut_reset (s : Hw) : RanOut s.m8EngineReset.trace :=
  ranOut_outs (s := { s with trace := .reset :: s.trace }) _ (Or.inl (by simp))

/-- A wait for entries ends with as many free as it asked for, or runs out. -/
theorem fifoPoll_cases {n : ℕ} (hn : n ≤ 15) : ∀ (i : ℕ) (s : Hw),
    (∃ t, s.fifoPoll env n i = (false, t) ∧ RanOut t.trace) ∨
      ∃ (occ : Fin 17) (occs : List (Fin 17)) (m : ℕ), (occ : ℕ) + n ≤ 15 ∧
        s.fifoPoll env n i = (true, { s with
          room := 15 - (occ : ℕ)
          reads := m
          trace := (occ :: occs).map .fifo ++ s.trace })
  | 0, s => Or.inl ⟨_, rfl, ranOut_reset s⟩
  | i + 1, s => by
    rw [Hw.fifoPoll]
    by_cases h : (s.inpFifo env).1 &&& (0x8000 >>> n) = 0
    · refine Or.inr ⟨env.fifo s.reads, [], s.reads + 1, (fifoWord_need _ hn).1 h, ?_⟩
      have hle := (env.fifo s.reads).isLt
      rw [if_pos h]
      simp only [Hw.inpFifo, freeEntries_fifoWord, List.map_nil, List.map_cons, List.cons_append,
        List.nil_append, Prod.mk.injEq, true_and]
      congr 1
      omega
    · rw [if_neg h]
      rcases fifoPoll_cases hn i (s.inpFifo env).2 with h1 | ⟨occ, occs, m, h1, h2⟩
      · exact Or.inl h1
      · refine Or.inr ⟨occ, occs ++ [env.fifo s.reads], m, h1, h2.trans ?_⟩
        simp [Hw.inpFifo]

/-- A wait for an idle engine ends with an empty FIFO, or runs out. -/
theorem idlePoll_cases : ∀ (i : ℕ) (s : Hw), RanOut (s.idlePoll env i).trace ∨
    ∃ (occ : Fin 17) (occs : List (Fin 17)) (m : ℕ), (occ : ℕ) = 0 ∧
      s.idlePoll env i = { s with
        reads := m
        trace := (occ :: occs).map .fifo ++ s.trace }
  | 0, s => Or.inl (ranOut_reset s)
  | i + 1, s => by
    have hgo : ∀ (t : Hw) (m : ℕ),
        t = { s with reads := m, trace := .fifo (env.fifo s.reads) :: s.trace } →
        RanOut (t.idlePoll env i).trace ∨ ∃ (occ : Fin 17) (occs : List (Fin 17)) (m : ℕ),
          (occ : ℕ) = 0 ∧ t.idlePoll env i = { s with
            reads := m
            trace := (occ :: occs).map .fifo ++ s.trace } := by
      rintro t m rfl
      rcases idlePoll_cases i { s with reads := m, trace := .fifo (env.fifo s.reads) :: s.trace }
        with h1 | ⟨occ, occs, m', h1, h2⟩
      · exact Or.inl h1
      · refine Or.inr ⟨occ, occs ++ [env.fifo s.reads], m', h1, h2.trans ?_⟩
        simp
    rw [Hw.idlePoll]
    by_cases h : (s.inpFifo env).1 = 0
    · rw [if_pos h]
      split_ifs
      · exact Or.inr ⟨env.fifo s.reads, [], s.reads + 2, (fifoWord_eq_zero _).1 h, by
          simp [Hw.inpFifo]⟩
      · exact hgo _ (s.reads + 2) (by simp [Hw.inpFifo])
    · rw [if_neg h]
      exact hgo _ (s.reads + 1) (by simp [Hw.inpFifo])

/-- A wait for a read's data ends with it, or runs out. -/
theorem dataPoll_cases : ∀ (i : ℕ) (s : Hw),
    (∃ t, s.dataPoll env i = (false, t) ∧ RanOut t.trace) ∨
      ∃ m, s.dataPoll env i = (true, { s with reads := m, trace := .ready :: s.trace })
  | 0, s => Or.inl ⟨_, rfl, ranOut_reset s⟩
  | i + 1, s => by
    rw [Hw.dataPoll]
    by_cases h : env.ready s.reads = true
    · exact Or.inr ⟨s.reads + 1, by rw [if_pos h]⟩
    · rw [if_neg h]
      exact dataPoll_cases i { s with reads := s.reads + 1 }

variable {s : Hw}

theorem ranOut_fifoNeed {n : ℕ} (hn : n ≤ 15) (h : RanOut s.trace) :
    RanOut (s.m8FifoNeed env n).2.trace := by
  unfold Hw.m8FifoNeed
  rcases fifoPoll_cases env hn M8_WAIT_LIMIT s with ⟨t, h1, h2⟩ | ⟨occ, occs, m, -, h2⟩
  · rwa [h1]
  · rw [h2]
    exact h.append _

theorem fifoNeed_owes {n : ℕ} (hn : n ≤ 15) (h : Safe s) (hp : s.dpOk = true → s.roomOk = true) :
    Owes s.roomOk 0 n (s.m8FifoNeed env n).2 ∧
      ((s.m8FifoNeed env n).1 = false → RanOut (s.m8FifoNeed env n).2.trace) := by
  unfold Hw.m8FifoNeed
  rcases fifoPoll_cases env hn M8_WAIT_LIMIT s with ⟨t, h1, h2⟩ | ⟨occ, occs, m, h1, h2⟩
  · rw [h1]
    exact ⟨Or.inl h2, fun _ => h2⟩
  · rw [h2]
    refine ⟨h.imp (·.append _) fun h => ⟨?_, rfl, hp, ?_, ?_⟩, nofun⟩
    · exact (neverOverrun_polls false (occ :: occs) s.trace).2 h
    · simp [outstanding]
    · simp only
      omega

theorem waitFifoEmpty_owes (h : Safe s) : Owes false 0 15 (s.m8WaitFifoEmpty env) :=
  (fifoNeed_owes env (s := { s.mmForget with roomOk := false, dpOk := false, rdOk := false })
    (by decide) h (by simp)).1

theorem roomFor_owes {k a : ℤ} {n : ℕ} (hn : n ≤ 15) (hk : 0 ≤ k) (h : Owes false k a s) :
    Owes false k n (s.m8RoomFor env n) := by
  unfold Hw.m8RoomFor
  split_ifs with hr
  · exact (waitFifoEmpty_owes env h.safe).mono hk (by omega)
  · exact h.imp_right fun h => ⟨h.never, h.flag, h.path, h.owed, by omega⟩

theorem ranOut_waitFifoEmpty (h : RanOut s.trace) : RanOut (s.m8WaitFifoEmpty env).trace :=
  ranOut_fifoNeed env (by decide) h

/-- Room that is there is not waited for. -/
theorem roomFor_of_le {ok : Bool} {k a : ℤ} {n : ℕ} (hn : (n : ℤ) ≤ a) (h : Owes ok k a s) :
    Owes ok k a (s.m8RoomFor env n) := by
  unfold Hw.m8RoomFor
  split_ifs with hr
  · exact h.imp (ranOut_waitFifoEmpty env) fun h => absurd h.room (by omega)
  · exact h

/-- Room counted across calls, and left counted. -/
theorem roomCounted_owes {n : ℕ} (hn : n ≤ 15) (h : Kept s) :
    Owes true 0 n (s.m8RoomCounted env n) := by
  unfold Hw.m8RoomCounted
  split_ifs with hr
  · rcases h with h | h
    · refine Or.inl ?_
      have h1 := ranOut_fifoNeed env hn h
      split <;> simp_all
    · obtain ⟨h1, h2⟩ := fifoNeed_owes env hn (Or.inr h.never) h.path
      generalize s.m8FifoNeed env n = r at h1 h2
      obtain ⟨_ | _, t⟩ := r
      · exact Or.inl (h2 rfl)
      · exact h1.imp_right fun h1 => ⟨h1.never, rfl, fun _ => rfl, h1.owed, h1.room⟩
  · simp only [not_or, Bool.not_eq_false, not_lt] at hr
    exact (h.counted hr.1).owes.mono le_rfl hr.2

/-- A short path's room : there, or the wait has run out. -/
theorem roomOrNeed_owes {n : ℕ} (hn : n ≤ 15) (h : Counted s) :
    ((s.roomOrNeed env n).1 = true → Owes true 0 n (s.roomOrNeed env n).2) ∧
      ((s.roomOrNeed env n).1 = false → RanOut (s.roomOrNeed env n).2.trace) := by
  unfold Hw.roomOrNeed
  split_ifs with hr
  · rcases h with h | ⟨h, ho⟩
    · exact ⟨fun _ => Or.inl (ranOut_fifoNeed env hn h), fun _ => ranOut_fifoNeed env hn h⟩
    · obtain ⟨h1, h2⟩ := fifoNeed_owes env hn (Or.inr h.never) h.path
      exact ⟨fun _ => ho ▸ h1, h2⟩
  · exact ⟨fun _ => h.owes.mono le_rfl (by omega), nofun⟩

/-- An idle engine has taken every write. -/
theorem waitIdle_owes {ok : Bool} {k a : ℤ} (h : Owes ok k a s) :
    Owes ok k a (s.m8HwWaitIdle env) := by
  unfold Hw.m8HwWaitIdle
  rcases idlePoll_cases env M8_WAIT_LIMIT s with h1 | ⟨occ, occs, m, h1, h2⟩
  · exact Or.inl h1
  · rw [h2]
    refine h.imp (·.append _) fun h => ⟨?_, h.flag, h.path, ?_, h.room⟩
    · exact (neverOverrun_polls false (occ :: occs) s.trace).2 h.never
    · have := h.owed
      simp only [List.map_cons, List.cons_append, outstanding, h1]
      omega

theorem waitIdle_kept (h : Kept s) : Kept (s.m8HwWaitIdle env) := by
  by_cases hs : s.roomOk = true
  · exact (waitIdle_owes env (h.counted hs).owes).kept_counted le_rfl
  · have h1 : Owes false (outstanding false s.trace + s.room) s.room s :=
      h.imp_right fun h =>
        ⟨h.never, by simpa using hs, fun hd => absurd (h.path hd) hs, by omega, le_rfl⟩
    exact (waitIdle_owes env h1).kept

/-- A read's data comes after every write before it. -/
theorem dataPoll_owes {ok : Bool} {k a : ℤ} (n : ℕ) (h : Owes ok k a s) :
    ((s.dataPoll env n).1 = true → RanOut (s.dataPoll env n).2.trace ∨
      Ledger ok k a (s.dataPoll env n).2 ∧ outstanding false (s.dataPoll env n).2.trace = 0) ∧
    ((s.dataPoll env n).1 = false → RanOut (s.dataPoll env n).2.trace) := by
  rcases dataPoll_cases env n s with ⟨t, h1, h2⟩ | ⟨m, h1⟩
  · rw [h1]
    exact ⟨nofun, fun _ => h2⟩
  · rw [h1]
    refine ⟨fun _ => h.imp (·.cons _) fun h => ⟨⟨h.never, h.flag, h.path, ?_, h.room⟩, rfl⟩, nofun⟩
    have := h.owed
    simp only [outstanding, Bool.false_eq_true, if_false]
    omega

theorem dataPoll_kept {k a : ℤ} (n : ℕ) (h : Owes false k a s) : Kept (s.dataPoll env n).2 := by
  have h1 := dataPoll_owes env n h
  generalize s.dataPoll env n = r at h1
  obtain ⟨_ | _, t⟩ := r
  · exact Or.inl (h1.2 rfl)
  · exact Owes.kept ((h1.1 rfl).imp_right And.left)

end Waits

/-! ## Shadows -/

section Shadows

variable (env : EngineEnv) {s : Hw} {ok : Bool} {a : ℤ}

theorem put_of_room {r : ShReg} {v : ℤ} (ha : 0 ≤ a) (h : Owes ok 0 (a + 1) (s.m8RoomFor env 1)) :
    Owes ok 0 a (s.m8Put env r v) :=
  (((h.outpw (by omega) (m8ShPort r) v).spend 1).mono (by omega) (by omega)).congr rfl rfl rfl rfl

/-- A register put with room of its own. -/
theorem put_owes (r : ShReg) (v : ℤ) (h : Owes false 0 a s) : Owes false 0 0 (s.m8Put env r v) :=
  put_of_room env le_rfl (roomFor_owes env (by decide) le_rfl h)

/-- A register put from room that is there. -/
theorem put_counted (r : ShReg) (v : ℤ) (ha : 0 ≤ a) (h : Owes ok 0 (a + 1) s) :
    Owes ok 0 a (s.m8Put env r v) :=
  put_of_room env ha (roomFor_of_le env (by omega) h)

theorem set_owes (r : ShReg) (v : ℤ) (h : Owes false 0 0 s) : Owes false 0 0 (s.m8Set env r v) := by
  unfold Hw.m8Set
  split_ifs
  exacts [put_owes env r v h, h]

theorem set_counted (r : ShReg) (v : ℤ) (ha : 0 ≤ a) (h : Owes ok 0 (a + 1) s) :
    Owes ok 0 a (s.m8Set env r v) := by
  unfold Hw.m8Set
  split_ifs
  exacts [put_counted env r v ha h, h.mono le_rfl (by omega)]

theorem scissors_owes (l t r b : ℤ) (h : Owes false 0 0 s) :
    Owes false 0 0 (s.m8Scissors env l t r b) :=
  set_owes env _ _ (set_owes env _ _ (set_owes env _ _ (set_owes env _ _ h)))

theorem openScissors_counted (ha : 0 ≤ a) (h : Owes ok 0 (a + 4) s) :
    Owes ok 0 a (s.openScissors env) := by
  refine set_counted env _ _ ha (set_counted env _ _ (by omega) (set_counted env _ _ (by omega) ?_))
  exact set_counted env _ _ (by omega) (h.mono le_rfl (by omega))

theorem plain_owes (h : Owes false 0 0 s) : Owes false 0 0 (s.m8Plain env) :=
  scissors_owes env _ _ _ _
      (put_owes env _ _ (put_owes env _ _ (set_owes env _ _ (set_owes env _ _ h))))

/-- What a drain leaves, for a call that does not count its room. -/
theorem drained_owes (h : Kept s) : Owes false 0 0 (s.m8WaitFifoEmpty env) :=
  (waitFifoEmpty_owes env h.safe).mono le_rfl (by decide)

end Shadows

/-! ## The queue -/

section Queue

variable (env : EngineEnv) {s : Hw}

/-- `t` is `s` but for its queue and what the shadows remember. -/
structure Queued (s t : Hw) : Prop where
  trace : t.trace = s.trace
  room : t.room = s.room
  roomOk : t.roomOk = s.roomOk
  dpOk : t.dpOk = s.dpOk

namespace Queued

variable {t u : Hw}

theorem refl (s : Hw) : Queued s s := ⟨rfl, rfl, rfl, rfl⟩

theorem trans (h : Queued s t) (h' : Queued t u) : Queued s u :=
  ⟨h'.trace.trans h.trace, h'.room.trans h.room, h'.roomOk.trans h.roomOk, h'.dpOk.trans h.dpOk⟩

theorem qs (h : Queued s t) (ws : List (ℕ × ℤ)) : Queued s (t.m8Qs ws) :=
  h.trans ⟨rfl, rfl, rfl, rfl⟩

theorem q (h : Queued s t) (p : ℕ) (v : ℤ) : Queued s (t.m8Q p v) := h.qs [(p, v)]

theorem qSet (h : Queued s t) (r : ShReg) (v : ℤ) : Queued s (t.m8QSet r v) := by
  refine h.trans ?_
  unfold Hw.m8QSet
  split_ifs <;> exact ⟨rfl, rfl, rfl, rfl⟩

theorem qSize (h : Queued s t) (x y : ℤ) : Queued s (t.m8QSize x y) := by
  refine h.trans ?_
  unfold Hw.m8QSize
  split_ifs <;> exact ⟨rfl, rfl, rfl, rfl⟩

theorem dpQ (mix : ℕ) (l t' r b : ℤ) : Queued s (s.m8DpQ mix l t' r b) := by
  have h0 : Queued s ((s.m8QSet .WRT_MASK 0x00FF).m8QSet .RD_MASK 0x00FF) :=
    (qSet ⟨rfl, rfl, rfl, rfl⟩ _ _).qSet _ _
  unfold Hw.m8DpQ
  dsimp only
  split_ifs
  · exact ((((h0.qs _).qSet _ _).qSet _ _).qSet _ _).qSet _ _ |>.q _ _
  · exact (((h0.qSet _ _).qSet _ _).qSet _ _).qSet _ _

theorem plainQ (mix : ℕ) : Queued s (s.m8PlainQ mix) := dpQ ..

theorem kept (h : Queued s t) (hs : Kept s) : Kept t := by
  refine hs.imp (fun hs => h.trace ▸ hs) fun hs => ⟨h.trace ▸ hs.never, ?_, ?_⟩
  · rw [h.dpOk, h.roomOk]
    exact hs.path
  · rw [h.roomOk, h.trace, h.room]
    exact hs.owed

end Queued

/-- A queue that has a write keeps it. -/
theorem qSet_ne_nil (r : ShReg) (v : ℤ) (h : s.q ≠ []) : (s.m8QSet r v).q ≠ [] := by
  unfold Hw.m8QSet
  split_ifs <;> simp_all [Hw.m8Q]

/-- The data path's set-up queues a write, or the engine holds a data path. -/
theorem plainQ_ne_nil (mix : ℕ) (s : Hw) : (s.m8PlainQ mix).q ≠ [] ∨ s.dpOk = true := by
  by_cases h : s.dpOk = true
  · exact Or.inr h
  · left
    simp [Hw.m8PlainQ, Hw.m8DpQ, h, Hw.m8Q]

/-- A send leaves its room counted, or a wait has run out. -/
def SentWell (r : Bool × Hw) : Prop :=
  (r.1 = true → Counted r.2) ∧ (r.1 = false → RanOut r.2.trace)

theorem SentWell.kept {r : Bool × Hw} (h : SentWell r) : Kept r.2 := by
  obtain ⟨_ | _, s⟩ := r
  exacts [Or.inl (h.2 rfl), (h.1 rfl).kept]

/-- One burst of the queue. -/
theorem burst_sentWell (ws : List (ℕ × ℤ)) (hw : ws.length ≤ 15) (h : Kept s) :
    let r := if s.roomOk = false ∨ s.room < ws.length then s.m8FifoNeed env ws.length else (true, s)
    (r.1 = true → Counted (({ r.2 with roomOk := true }.spend ws.length).outs ws)) ∧
      (r.1 = false → RanOut r.2.trace) := by
  have hsend : ∀ t : Hw, Owes true 0 ws.length t → Counted ((t.spend ws.length).outs ws) :=
    fun t ht => ((ht.spend ws.length).outs ws (by omega)).counted (by omega)
  dsimp only
  split_ifs with hr
  · refine ⟨fun hok => hsend _ ?_, fun hok => ?_⟩
    · rcases h with h | h
      · exact Or.inl (ranOut_fifoNeed env hw h)
      · refine (fifoNeed_owes env hw (Or.inr h.never) h.path).1.imp_right fun h1 => ?_
        exact ⟨h1.never, rfl, fun _ => rfl, h1.owed, h1.room⟩
    · rcases h with h | h
      · exact ranOut_fifoNeed env hw h
      · exact (fifoNeed_owes env hw (Or.inr h.never) h.path).2 hok
  · simp only [not_or, Bool.not_eq_false, not_lt] at hr
    refine ⟨fun _ => hsend _ ?_, nofun⟩
    exact ((h.counted hr.1).owes.mono le_rfl hr.2).congr rfl rfl hr.1.symm rfl

theorem qSend_sentWell : ∀ (fuel : ℕ) (q : List (ℕ × ℤ)) (s : Hw), q.length ≤ fuel → Kept s →
    q ≠ [] ∨ Counted s → SentWell (s.qSend env fuel q)
  | 0, q, s, hq, _, hs => by
    obtain rfl := List.length_eq_zero_iff.1 (Nat.le_zero.1 hq)
    exact ⟨fun _ => hs.resolve_left (by simp), nofun⟩
  | _ + 1, [], s, _, _, hs => ⟨fun _ => hs.resolve_left (by simp), nofun⟩
  | fuel + 1, w :: q, s, hq, h, _ => by
    unfold Hw.qSend
    generalize hk : (if (w :: q).length < M8_FIFO_DEPTH - 1 then (w :: q).length
      else M8_FIFO_DEPTH - 1) = k
    have hpos : 0 < k ∧ k ≤ 15 ∧ k ≤ (w :: q).length := by
      have hlen : (w :: q).length = q.length + 1 := rfl
      rw [← hk, hlen, show M8_FIFO_DEPTH - 1 = 15 from rfl]
      split_ifs <;> omega
    have hlen : ((w :: q).take k).length = k := by simpa using hpos.2.2
    have hb := burst_sentWell env ((w :: q).take k) (by omega) h
    rw [hlen] at hb
    dsimp only at hb ⊢
    generalize (if s.roomOk = false ∨ s.room < (k : ℤ) then s.m8FifoNeed env k
      else (true, s)) = r at hb ⊢
    obtain ⟨_ | _, t⟩ := r
    · exact ⟨nofun, fun _ => hb.2 rfl⟩
    · have h1 := hb.1 rfl
      refine qSend_sentWell fuel ((w :: q).drop k) _ ?_ h1.kept (Or.inr h1)
      simp only [List.length_drop]
      omega

/-- `m8_q_send` of a queue that has a write, or with counted room. -/
theorem m8QSend_sentWell (h : Kept s) (hs : s.q ≠ [] ∨ Counted s) : SentWell (s.m8QSend env) :=
  qSend_sentWell env s.q.length s.q { s with q := [] } le_rfl
    (Queued.kept (s := s) ⟨rfl, rfl, rfl, rfl⟩ h)
    (hs.imp_right fun hs => hs.imp_right fun hs => ⟨⟨hs.1.never, hs.1.path, hs.1.owed⟩, hs.2⟩)

end Queue

end Inboard
