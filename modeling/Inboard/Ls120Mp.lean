import Inboard.Ls120
import Inboard.Steps

/-!
# The LS-120 SCSI miniport

LS120MP.ASM over the transport : the entry points that SCSIPORT calls, and what it knows of
them (`ScsiPort`). The bridge is reset once, and until the timer has seen the drive settle
one request is held. Whatever the bridge and the drive do, a request is answered once, in
order, and a request that is held waits for `LS_SETTLE_TICKS` calls of the timer at most
(`ls_answers`).
-/

set_option linter.unusedSectionVars false

namespace Inboard

/-! ## Requests -/

/-- The `SRB_STATUS` codes of the miniport. -/
inductive LsStatus
  | success
  | error
  | busy
  | invalidRequest
  | selectionTimeout
  | badFunction
  deriving DecidableEq

/-- What the miniport reads of a `SCSI_REQUEST_BLOCK`, the buffer among it. -/
structure LsSrb where
  executeScsi : Bool
  targetId : UInt8
  lun : UInt8
  cdbLength : ℕ
  cdb : ℕ → UInt8
  dataIn : Bool
  dataOut : Bool
  data : ℕ → UInt8
  dataTransferLength : ℕ

/-- A request completed, and its buffer. -/
structure LsAnswer where
  srb : LsSrb
  status : LsStatus
  data : ℕ → UInt8

/-- What SCSIPORT has sent and been told : it sends a request when it has been asked for the
next, and calls the timer when a call is due. -/
structure ScsiPort where
  sent : List LsSrb
  completed : List LsAnswer
  next : Bool
  timer : Bool
  resets : ℕ

/-! ## The miniport -/

inductive LsState
  | settling
  | ready
  | absent
  deriving DecidableEq

/-- `LS_SETTLE_TICKS`. -/
def lsSettleTicks : UInt32 := 6000

def lsCdbMax : ℕ := 12

/-- The miniport's variables, with the transport's. -/
structure LsMp (β : Type*) where
  ls : Ls β
  state : LsState
  settleLeft : UInt32
  pendSrb : Option LsSrb
  srbCount : ℕ
  port : ScsiPort

/-- `LsPacket` : the CDB in twelve bytes, the rest of them 0. -/
def lsPacket (srb : LsSrb) : List UInt8 :=
  (List.range lsCdbMax).map fun i => if i < srb.cdbLength then srb.cdb i else 0

/-- The direction of a request. Both flags, or none, are data-in. -/
def LsSrb.isOut (srb : LsSrb) : Bool := srb.dataOut && !srb.dataIn

section Miniport

variable {β : Type*} (B : LsBridge β)

/-- `lsi_complete` : the answer, and the request for the next. -/
def lsComplete (srb : LsSrb) (status : LsStatus) (data : ℕ → UInt8) (s : LsMp β) : LsMp β :=
  { s with port := { s.port with
      completed := s.port.completed ++ [⟨srb, status, data⟩]
      next := true } }

/-- `lsi_selected`. -/
def lsSelected (srb : LsSrb) (s : LsMp β) : LsMp β :=
  if srb.lun ≠ 0 ∨ srb.targetId ≠ 0 then lsComplete srb .selectionTimeout srb.data s
  else
    let s := { s with ls := lsSpinUp B s.ls }
    if lsCdbMax < srb.cdbLength ∨ srb.cdbLength = 0 then
      lsComplete srb .invalidRequest srb.data s
    else
      let r := lsPacketCommand B (lsPacket srb) srb.dataTransferLength srb.isOut
        { s.ls with buf := srb.data }
      lsComplete srb (if r.1 then .success else .error) r.2.buf { s with ls := r.2 }

/-- `LsStartIo`. While the drive settles one request is held, and not answered. -/
def lsStartIo (srb : LsSrb) (s : LsMp β) : LsMp β :=
  let s := { s with srbCount := s.srbCount + 1 }
  if srb.executeScsi = false then lsComplete srb .badFunction srb.data s
  else match s.state with
    | .absent => lsComplete srb .selectionTimeout srb.data s
    | .settling =>
      if s.pendSrb.isNone then { s with pendSrb := some srb } else lsComplete srb .busy srb.data s
    | .ready => lsSelected B srb s

/-- `lst_pending` : what arrived while the drive settled runs now. -/
def lsPending (s : LsMp β) : LsMp β :=
  match s.pendSrb with
  | none => s
  | some srb => lsStartIo B srb { s with pendSrb := none }

/-- One poll of the drive, in a call of the timer. MODE=SPP pins the nibble path, so that no ECP
is looked for once the drive is ready. -/
def lsSettle (s : LsMp β) : LsMp β :=
  let r := lsSettleStep B s.ls
  let s := { s with ls := r.2 }
  match r.1 with
  | .ready => lsPending B { s with state := .ready }
  | .absent => lsPending B { s with state := .absent }
  | .settling =>
    let s := { s with settleLeft := s.settleLeft - 1 }
    if s.settleLeft ≠ 0 then s else lsPending B { s with state := .absent }

/-- `LsTimer`, which asks for its next call first. -/
def lsTimer (s : LsMp β) : LsMp β :=
  if s.state ≠ .settling ∧ s.pendSrb = none then s
  else
    let s := { s with port := { s.port with timer := true } }
    if s.state ≠ .settling then lsPending B s else lsSettle B s

/-- `LsInitialize` : the reset is sent off and not waited for. -/
def lsInitialize (s : LsMp β) : LsMp β :=
  { s with
    ls := lsOpenReset B s.ls
    state := .settling
    settleLeft := lsSettleTicks
    pendSrb := none
    port := { s.port with resets := s.port.resets + 1, timer := true } }

/-- The miniport as it is loaded, with a bridge on the cable. -/
def lsLoaded (bridge : β) : LsMp β where
  ls :=
    { bridge := bridge
      connected := false
      lastStatus := 0
      xferN := 0
      phase := 0
      senseBuf := fun _ => 0
      spunUp := false
      buf := fun _ => 0 }
  state := .settling
  settleLeft := lsSettleTicks
  pendSrb := none
  srbCount := 0
  port := ⟨[], [], true, false, 0⟩

/-! ## Runs -/

/-- A call of SCSIPORT. -/
inductive LsCall
  | startIo (srb : LsSrb)
  | timer

/-- A call, which SCSIPORT then has made. -/
def lsCall (s : LsMp β) : LsCall → LsMp β
  | .startIo srb => lsStartIo B srb
      { s with port := { s.port with sent := s.port.sent ++ [srb], next := false } }
  | .timer => lsTimer B { s with port := { s.port with timer := false } }

/-- The calls SCSIPORT may make. -/
def LsCall.Due (s : LsMp β) : LsCall → Prop
  | .startIo _ => s.port.next
  | .timer => s.port.timer

/-- The calls of the timer. -/
def timerCalls : List LsCall → ℕ
  | [] => 0
  | .startIo _ :: calls => timerCalls calls
  | .timer :: calls => timerCalls calls + 1

/-! ## Answers -/

/-- What `LsStartIo` does with nothing held : the request is held, or answered. -/
theorem lsStartIo_cases (srb : LsSrb) {s : LsMp β} (hpend : s.pendSrb = none) :
    (lsStartIo B srb s).state = s.state ∧ (lsStartIo B srb s).settleLeft = s.settleLeft ∧
      ((s.state = .settling ∧ (lsStartIo B srb s).pendSrb = some srb ∧
          (lsStartIo B srb s).port = s.port) ∨
        (lsStartIo B srb s).pendSrb = none ∧ ∃ status data, status ≠ .busy ∧
          (lsStartIo B srb s).port = { s.port with
            completed := s.port.completed ++ [⟨srb, status, data⟩]
            next := true }) := by
  unfold lsStartIo
  dsimp only
  by_cases hexec : srb.executeScsi = false
  · rw [if_pos hexec]
    exact ⟨rfl, rfl, .inr ⟨hpend, .badFunction, srb.data, LsStatus.noConfusion, rfl⟩⟩
  rw [if_neg hexec]
  cases s.state with
  | absent =>
    exact ⟨rfl, rfl, .inr ⟨hpend, .selectionTimeout, srb.data, LsStatus.noConfusion, rfl⟩⟩
  | settling =>
    dsimp only
    rw [if_pos (by rw [hpend]; rfl)]
    exact ⟨rfl, rfl, .inl ⟨rfl, rfl, rfl⟩⟩
  | ready =>
    dsimp only
    unfold lsSelected
    dsimp only
    split_ifs
    · exact ⟨rfl, rfl, .inr ⟨hpend, .selectionTimeout, srb.data, LsStatus.noConfusion, rfl⟩⟩
    · exact ⟨rfl, rfl, .inr ⟨hpend, .invalidRequest, srb.data, LsStatus.noConfusion, rfl⟩⟩
    · exact ⟨rfl, rfl, .inr ⟨hpend, .success, _, LsStatus.noConfusion, rfl⟩⟩
    · exact ⟨rfl, rfl, .inr ⟨hpend, .error, _, LsStatus.noConfusion, rfl⟩⟩

/-- Every request is answered once, in order, but for one that is held while the drive
settles ; the timer then has `timers` of its calls behind it. -/
structure LsMp.Answers (timers : ℕ) (s : LsMp β) : Prop where
  sent : s.port.sent = s.port.completed.map LsAnswer.srb ++ s.pendSrb.toList
  next : s.port.next = s.pendSrb.isNone
  held : s.pendSrb ≠ none → s.state = .settling
  timer : s.state = .settling → s.port.timer = true
  left : s.state = .settling → s.settleLeft.toNat + timers = 6000 ∧ s.settleLeft ≠ 0
  busy : ∀ a ∈ s.port.completed, a.status ≠ .busy

/-- A request that SCSIPORT has sent and that is not in hand yet. -/
theorem LsMp.Answers.startIo {srb : LsSrb} {timers : ℕ} {s : LsMp β} (hpend : s.pendSrb = none)
    (hsent : s.port.sent = s.port.completed.map LsAnswer.srb ++ [srb])
    (hnext : s.port.next = false) (htimer : s.state = .settling → s.port.timer = true)
    (hleft : s.state = .settling → s.settleLeft.toNat + timers = 6000 ∧ s.settleLeft ≠ 0)
    (hbusy : ∀ a ∈ s.port.completed, a.status ≠ .busy) : (lsStartIo B srb s).Answers timers := by
  obtain ⟨hstate, hset, ⟨hsettling, hheld, hport⟩ | ⟨hnone, status, data, hst, hport⟩⟩ :=
    lsStartIo_cases B srb hpend
  · refine ⟨?_, ?_, fun _ => hstate.trans hsettling, ?_, ?_, ?_⟩
    · rw [hport, hheld]
      exact hsent
    · rw [hport, hheld]
      exact hnext
    · rw [hport, hstate]
      exact htimer
    · rw [hset, hstate]
      exact hleft
    · rw [hport]
      exact hbusy
  · refine ⟨?_, ?_, fun h => absurd hnone h, ?_, ?_, ?_⟩
    · rw [hport, hnone, Option.toList_none, List.append_nil, List.map_append]
      exact hsent
    · rw [hport, hnone]
      rfl
    · rw [hport, hstate]
      exact htimer
    · rw [hset, hstate]
      exact hleft
    · rw [hport]
      intro a ha
      rcases List.mem_append.1 ha with ha | ha
      · exact hbusy a ha
      · rw [List.mem_singleton.1 ha]
        exact hst

/-- What was held is taken up once the drive has settled. -/
theorem LsMp.Answers.pending {timers : ℕ} {s : LsMp β}
    (hsent : s.port.sent = s.port.completed.map LsAnswer.srb ++ s.pendSrb.toList)
    (hnext : s.port.next = s.pendSrb.isNone) (hstate : s.state ≠ .settling)
    (hbusy : ∀ a ∈ s.port.completed, a.status ≠ .busy) : (lsPending B s).Answers timers := by
  unfold lsPending
  cases hpend : s.pendSrb with
  | none =>
    exact ⟨hsent, hnext, fun h => absurd hpend h, fun h => absurd h hstate,
      fun h => absurd h hstate, hbusy⟩
  | some srb =>
    rw [hpend] at hsent hnext
    exact .startIo B rfl hsent hnext (fun h => absurd h hstate) (fun h => absurd h hstate) hbusy

/-- A call of the timer. -/
theorem LsMp.Answers.tick {timers : ℕ} {s : LsMp β} (h : s.Answers timers) :
    (lsCall B s .timer).Answers (timers + 1) := by
  obtain ⟨hsent, hnext, hheld, htimer, hleft, hbusy⟩ := h
  have hcall : lsCall B s .timer =
      lsTimer B { s with port := { s.port with timer := false } } := rfl
  rw [hcall]
  unfold lsTimer
  dsimp only
  by_cases hstate : s.state = .settling
  · rw [if_neg fun h => h.1 hstate, if_neg (not_not.2 hstate)]
    obtain ⟨hsum, hne⟩ := hleft hstate
    have hpos : s.settleLeft.toNat ≠ 0 := fun h => hne (UInt32.toNat_inj.1 h)
    have hdec : (s.settleLeft - 1).toNat = s.settleLeft.toNat - 1 := by
      rw [UInt32.toNat_sub_of_le]
      · rfl
      · exact UInt32.le_iff_toNat_le.2 (Nat.one_le_iff_ne_zero.2 hpos)
    unfold lsSettle
    dsimp only
    cases (lsSettleStep B s.ls).1 with
    | ready => exact .pending B hsent hnext LsState.noConfusion hbusy
    | absent => exact .pending B hsent hnext LsState.noConfusion hbusy
    | settling =>
      dsimp only
      split_ifs with hzero
      · refine ⟨hsent, hnext, hheld, fun _ => rfl, fun _ => ⟨?_, hzero⟩, hbusy⟩
        dsimp only
        omega
      · exact .pending B hsent hnext LsState.noConfusion hbusy
  · have hpend : s.pendSrb = none := by
      by_contra h
      exact hstate (hheld h)
    rw [if_pos ⟨hstate, hpend⟩]
    exact ⟨hsent, hnext, hheld, fun h => absurd h hstate, fun h => absurd h hstate, hbusy⟩

theorem LsMp.Answers.call {timers : ℕ} {s : LsMp β} (h : s.Answers timers) {call : LsCall}
    (hdue : call.Due s) : (lsCall B s call).Answers (timers + timerCalls [call]) := by
  cases call with
  | timer => exact h.tick B
  | startIo srb =>
    have hnone : s.pendSrb = none := Option.isNone_iff_eq_none.1 (h.next.symm.trans hdue)
    have hsent := h.sent
    rw [hnone, Option.toList_none, List.append_nil] at hsent
    refine .startIo B hnone ?_ rfl h.timer h.left h.busy
    exact congrArg (· ++ [srb]) hsent

theorem LsMp.Answers.run : ∀ {calls : List LsCall} {timers : ℕ} {s : LsMp β}, s.Answers timers →
    Steps.EveryStep (lsCall B) LsCall.Due s calls →
    (Steps.after (lsCall B) s calls).Answers (timers + timerCalls calls)
  | [], _, _, h, _ => h
  | call :: calls, timers, s, h, ⟨hdue, hrest⟩ => by
    have hcall := (h.call B hdue).run hrest
    have hcount : timers + timerCalls (call :: calls) =
        timers + timerCalls [call] + timerCalls calls := by
      cases call <;> simp only [timerCalls] <;> omega
    rw [hcount]
    exact hcall

theorem lsInitialize_answers (bridge : β) :
    (lsInitialize B (lsLoaded bridge)).Answers 0 where
  sent := rfl
  next := rfl
  held h := absurd rfl h
  timer _ := rfl
  left _ := ⟨rfl, (by decide : lsSettleTicks ≠ 0)⟩
  busy := nofun

/-- In every run of calls that SCSIPORT may make, over any bridge : the requests sent are the
ones completed, each once and in order, and one more at most, which is held. While it is held
the drive settles, a call of the timer is due, and fewer than 6000 have been made. None is answered
with BUSY. -/
theorem ls_answers (bridge : β) (calls : List LsCall)
    (hdue : Steps.EveryStep (lsCall B) LsCall.Due (lsInitialize B (lsLoaded bridge)) calls) :
    let s := Steps.after (lsCall B) (lsInitialize B (lsLoaded bridge)) calls
    s.port.sent = s.port.completed.map LsAnswer.srb ++ s.pendSrb.toList ∧
      (s.port.next = true ↔ s.pendSrb = none) ∧
      (s.pendSrb ≠ none →
        s.state = .settling ∧ s.port.timer = true ∧ timerCalls calls < 6000) ∧
      ∀ a ∈ s.port.completed, a.status ≠ .busy := by
  have h := (lsInitialize_answers B bridge).run B hdue
  rw [Nat.zero_add] at h
  refine ⟨h.sent, ?_, fun hpend => ?_, h.busy⟩
  · rw [h.next, Option.isNone_iff_eq_none]
  · have hstate := h.held hpend
    obtain ⟨hsum, hne⟩ := h.left hstate
    have hpos : 0 < (Steps.after (lsCall B) (lsInitialize B
        (lsLoaded bridge)) calls).settleLeft.toNat :=
      Nat.pos_of_ne_zero fun h => hne (UInt32.toNat_inj.1 h)
    exact ⟨hstate, h.timer hstate, by omega⟩

end Miniport

/-- A cable with nothing at its end. -/
def lsUnplugged : LsBridge Unit where
  openFrame _ := ()
  connect _ := ()
  disconnect _ := ()
  regRead _ _ := (0xFF, ())
  regWrite _ _ _ := ()
  blockRead n _ := (List.replicate n 0xFF, ())
  blockWrite _ _ := ()

/-- INQUIRY of 36 bytes. -/
def lsInquiry : LsSrb where
  executeScsi := true
  targetId := 0
  lun := 0
  cdbLength := 6
  cdb i := if i = 0 then 0x12 else if i = 4 then 36 else 0
  dataIn := true
  dataOut := false
  data _ := 0
  dataTransferLength := 36

/-- A request sent before the first poll is held, and answered in it. -/
theorem ls_answers_unplugged :
    let s := Steps.after (lsCall lsUnplugged) (lsInitialize lsUnplugged (lsLoaded ()))
      [.startIo lsInquiry, .timer]
    s.port.sent = s.port.completed.map LsAnswer.srb ++ s.pendSrb.toList ∧
      (s.port.next = true ↔ s.pendSrb = none) ∧
      (s.pendSrb ≠ none → s.state = .settling ∧ s.port.timer = true ∧ 1 < 6000) ∧
      ∀ a ∈ s.port.completed, a.status ≠ .busy :=
  ls_answers lsUnplugged () [.startIo lsInquiry, .timer] ⟨rfl, rfl, trivial⟩

end Inboard
