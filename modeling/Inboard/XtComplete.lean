import Inboard.XtCommit

/-!
# One completion for each request

In the build with `XT_YIELD_COMMIT` three entry points can end a request. In every legal run
the requests are completed one after the other, each once and each followed by one
`NextRequest`, and what is left open is the one write that `dxSrb` names
(`xtide_completes_once`) ; it is gone after `XT_COMMIT_WAKES` ticks.
-/

set_option linter.unusedSectionVars false

namespace Inboard

variable {δ : Type*}

/-! ## Legal runs -/

/-- The events that start and end requests. -/
def protocol (es : List XtEvent) : List XtEvent := es.filter fun e => !e.quiet

/-- How often `XtStartIo` was called. -/
def starts (es : List XtEvent) : ℕ := es.countP fun e => e matches .startIo _ _

/-- How often SCSIPORT was told `NextRequest`. -/
def nexts (es : List XtEvent) : ℕ := es.countP fun e => e matches .nextRequest

/-- SCSIPORT may make the call : `XtStartIo` comes with an SRB, and only when `NextRequest` has
followed each one before. -/
def XtCall.May (log : List XtEvent) : XtCall → Prop
  | .startIo p _ => p ≠ 0 ∧ starts log = nexts log
  | .timer => True
  | .resetBus => True

/-- Calls that SCSIPORT may make, in this order. -/
def Xt.Legal (D : XtDrive δ) (B : XtBuild) : Xt δ → List XtCall → Prop
  | _, [] => True
  | s, c :: calls => c.May s.log ∧ (xtCall D B s c).Legal D B calls

/-- The SRB that a call hands to the driver. -/
def XtCall.srb? : XtCall → Option (UInt32 × Srb)
  | .startIo p srb => some (p, srb)
  | .timer | .resetBus => none

/-- The SRBs of the calls. -/
def handed (calls : List XtCall) : List (UInt32 × Srb) := calls.filterMap XtCall.srb?

/-- The SRB that an event of the log begins. -/
def XtEvent.srb? : XtEvent → Option (UInt32 × Srb)
  | .startIo p srb => some (p, srb)
  | _ => none

/-- The SRBs that the log has taken. -/
def taken (es : List XtEvent) : List (UInt32 × Srb) := es.filterMap XtEvent.srb?

/-- How many of the calls are ticks. -/
def ticks (calls : List XtCall) : ℕ := calls.countP fun c => c matches .timer

/-- A request that was completed. -/
structure XtServed where
  p : UInt32
  srb : Srb
  st : SrbStatus

/-- What the log has of it. -/
def XtServed.events (q : XtServed) : List XtEvent :=
  .startIo q.p q.srb :: finishEvents q.p q.st

/-- The driver as it was loaded. -/
structure Xt.Fresh (s : Xt δ) : Prop where
  log : s.log = []
  dxSrb : s.dxSrb = 0
  commitPending : s.commitPending = false

/-- No request is open. -/
structure Xt.Idle (s : Xt δ) : Prop where
  dxSrb : s.dxSrb = 0
  commitPending : s.commitPending = false

/-- The write at `dxSrb` is open, and waits for its commit. -/
structure Xt.Waiting (s : Xt δ) (srb : Srb) : Prop where
  dxSrb : s.dxSrb ≠ 0
  commitPending : s.commitPending = true
  dxWakes : s.dxWakes < XT_COMMIT_WAKES
  write : ∃ r, srb.request? = some r ∧ r.isWrite = true

/-- The requests in the log were `served`, one after the other, and but for a waiting write none
is open. -/
def Xt.InOrder (s : Xt δ) (served : List XtServed) : Prop :=
  (s.Idle ∧ protocol s.log = served.flatMap XtServed.events) ∨
    ∃ srb, s.Waiting srb ∧
      protocol s.log = served.flatMap XtServed.events ++ [.startIo s.dxSrb srb]

/-! ## Calls -/

@[simp] theorem protocol_append (es fs : List XtEvent) :
    protocol (es ++ fs) = protocol es ++ protocol fs :=
  List.filter_append ..

@[simp] theorem protocol_startIo (p : UInt32) (srb : Srb) (es : List XtEvent) :
    protocol (.startIo p srb :: es) = .startIo p srb :: protocol es :=
  rfl

@[simp] theorem protocol_finishEvents (p : UInt32) (st : SrbStatus) :
    protocol (finishEvents p st) = finishEvents p st :=
  rfl

theorem protocol_quiet {es : List XtEvent} (hes : ∀ e ∈ es, e.quiet = true) : protocol es = [] := by
  rw [protocol, List.filter_eq_nil_iff]
  intro e he
  simp [hes e he]

@[simp] theorem taken_append (es fs : List XtEvent) : taken (es ++ fs) = taken es ++ taken fs :=
  List.filterMap_append ..

@[simp] theorem taken_startIo (p : UInt32) (srb : Srb) (es : List XtEvent) :
    taken (.startIo p srb :: es) = (p, srb) :: taken es :=
  rfl

@[simp] theorem taken_finishEvents (p : UInt32) (st : SrbStatus) : taken (finishEvents p st) = [] :=
  rfl

theorem taken_quiet {es : List XtEvent} (hes : ∀ e ∈ es, e.quiet = true) : taken es = [] := by
  rw [taken, List.filterMap_eq_nil_iff]
  intro e he
  have hquiet := hes e he
  cases e <;> first | rfl | exact absurd hquiet (by simp [XtEvent.quiet])

theorem handed_append (as bs : List XtCall) : handed (as ++ bs) = handed as ++ handed bs :=
  List.filterMap_append ..

theorem starts_protocol (es : List XtEvent) : starts (protocol es) = starts es := by
  unfold starts protocol
  rw [List.countP_filter]
  refine List.countP_congr fun e _ => ?_
  cases e <;> simp [XtEvent.quiet]

theorem nexts_protocol (es : List XtEvent) : nexts (protocol es) = nexts es := by
  unfold nexts protocol
  rw [List.countP_filter]
  refine List.countP_congr fun e _ => ?_
  cases e <;> simp [XtEvent.quiet]

theorem starts_served (served : List XtServed) :
    starts (served.flatMap XtServed.events) = nexts (served.flatMap XtServed.events) := by
  induction served with
  | nil => rfl
  | cons q served ih =>
    unfold starts nexts at ih ⊢
    rw [List.flatMap_cons, List.countP_append, List.countP_append, ih]
    rfl

/-- While a write waits, SCSIPORT makes no further request. -/
theorem Xt.Waiting.not_may {s : Xt δ} {srb : Srb} {served : List XtServed}
    (hlog : protocol s.log = served.flatMap XtServed.events ++ [.startIo s.dxSrb srb])
    (p : UInt32) (srb' : Srb) : ¬(XtCall.startIo p srb').May s.log := by
  rintro ⟨-, hcount⟩
  rw [← starts_protocol, ← nexts_protocol, hlog] at hcount
  have hserved := starts_served served
  unfold starts nexts at hcount hserved
  rw [List.countP_append, List.countP_append, hserved] at hcount
  simp at hcount

section Drive

variable {D : XtDrive δ} {B : XtBuild} {s t : Xt δ} {served : List XtServed}

/-- A request finished. -/
theorem Xt.InOrder.finish {u : Xt δ} {p : UInt32} (srb : Srb) (st : SrbStatus)
    (hsrb : u.dxSrb = 0) (hpending : u.commitPending = false)
    (hlog : protocol u.log = served.flatMap XtServed.events ++ [.startIo p srb]) :
    (xtFinish p st u).InOrder (served ++ [⟨p, srb, st⟩]) := by
  rw [xtFinish_eq]
  refine .inl ⟨⟨hsrb, hpending⟩, ?_⟩
  rw [protocol_append, hlog, protocol_finishEvents, List.flatMap_append, List.append_assoc]
  rfl

theorem Xt.InOrder.startIo (hyield : B.yieldCommit = true) (h : s.InOrder served) {p : UInt32}
    {srb : Srb} (hmay : (XtCall.startIo p srb).May s.log) (ht : s.Started B p srb t) :
    ∃ served, t.InOrder served := by
  obtain ⟨hidle, hlog⟩ : s.Idle ∧ protocol s.log = served.flatMap XtServed.events := by
    rcases h with h | ⟨srb', hwait, hlog⟩
    · exact h
    · exact absurd hmay (Xt.Waiting.not_may hlog p srb)
  have hstart (es : List XtEvent) (hes : ∀ e ∈ es, e.quiet = true) :
      protocol (s.log ++ .startIo p srb :: es) =
        served.flatMap XtServed.events ++ [.startIo p srb] := by
    rw [protocol_append, hlog, protocol_startIo, protocol_quiet hes]
  cases ht with
  | finished es u st hbegun hst ht =>
    rw [ht]
    refine ⟨served ++ [⟨p, srb, st⟩], .finish srb st (hbegun.dxSrb.trans hidle.dxSrb)
      (hbegun.commitPending hyield hidle.commitPending) ?_⟩
    rw [hbegun.log]
    exact hstart es hbegun.quiet
  | waiting es hyield hes hlog' htransport hsrb hwakes hpending hwait =>
    obtain ⟨r, hr, hwrite, -⟩ := hwait
    refine ⟨served, .inr ⟨srb, ⟨hsrb ▸ hmay.1, hpending, ?_, r, hr, hwrite⟩, ?_⟩⟩
    · rw [hwakes]
      exact Nat.succ_pos _
    · rw [hlog', hsrb]
      exact hstart es hes

theorem Xt.InOrder.woken (hyield : B.yieldCommit = true) (h : s.InOrder served)
    (ht : s.Woken B t) : ∃ served, t.InOrder served := by
  have hquiet (es : List XtEvent) (hes : ∀ e ∈ es, e.quiet = true) :
      protocol (s.log ++ es) = protocol s.log := by
    rw [protocol_append, protocol_quiet hes, List.append_nil]
  cases ht with
  | kept es hes hlog htransport hsrb hpending hlook hwakes =>
    refine ⟨served, ?_⟩
    rcases h with ⟨hidle, hserved⟩ | ⟨srb, hwait, hserved⟩
    · refine .inl ⟨⟨hsrb.trans hidle.dxSrb, hpending.trans hidle.commitPending⟩, ?_⟩
      rw [hlog, hquiet es hes, hserved]
    · refine .inr ⟨srb, ⟨hsrb ▸ hwait.dxSrb, hpending.trans hwait.commitPending, ?_, hwait.write⟩,
        ?_⟩
      · rcases hwakes hyield with hnone | ⟨-, hlt⟩
        · exact absurd hnone hwait.dxSrb
        · exact hlt
      · rw [hlog, hquiet es hes, hserved, hsrb]
  | released es u st hes hlog htransport hsrb hpending hopen hst ht =>
    rcases h with ⟨hidle, -⟩ | ⟨srb, hwait, hserved⟩
    · exact absurd hidle.dxSrb hopen
    · rw [ht]
      refine ⟨served ++ [⟨s.dxSrb, srb, st⟩], .finish srb st hsrb hpending ?_⟩
      rw [hlog, hquiet es hes, hserved]

theorem Xt.InOrder.call (hyield : B.yieldCommit = true) (h : s.InOrder served) {c : XtCall}
    (hmay : c.May s.log) : ∃ served, (xtCall D B s c).InOrder served := by
  cases c with
  | startIo p srb => exact h.startIo hyield hmay (xtStartIo_started D p srb s)
  | timer => exact h.woken hyield (xtTimer_woken D B s)
  | resetBus => exact h.woken hyield (xtResetBus_woken B s)

theorem Xt.InOrder.run (hyield : B.yieldCommit = true) (h : s.InOrder served) {calls : List XtCall}
    (hlegal : s.Legal D B calls) : ∃ served, (xtRun D B s calls).InOrder served := by
  induction calls generalizing s served with
  | nil => exact ⟨served, h⟩
  | cons c calls ih =>
    obtain ⟨hmay, hlegal⟩ := hlegal
    obtain ⟨served', h'⟩ := h.call (D := D) hyield hmay
    exact ih h' hlegal

/-! ## Waiting -/

/-- A call only adds to the log, and takes the SRB it is handed. -/
theorem xtCall_log (s : Xt δ) (c : XtCall) :
    ∃ es, (xtCall D B s c).log = s.log ++ es ∧ taken es = handed [c] := by
  have hwoken {t : Xt δ} (h : s.Woken B t) : ∃ es, t.log = s.log ++ es ∧ taken es = [] := by
    cases h with
    | kept es hes hlog => exact ⟨es, hlog, taken_quiet hes⟩
    | released es u st hes hlog htransport hsrb hpending hopen hst ht =>
      refine ⟨es ++ finishEvents s.dxSrb st, ?_, ?_⟩
      · rw [ht, xtFinish_eq, hlog, List.append_assoc]
      · rw [taken_append, taken_quiet hes, taken_finishEvents, List.append_nil]
  cases c with
  | startIo p srb =>
    cases xtStartIo_started (B := B) D p srb s with
    | finished es u st hbegun hst ht =>
      refine ⟨.startIo p srb :: es ++ finishEvents p st, ?_, ?_⟩
      · rw [xtCall, ht, xtFinish_eq, hbegun.log, List.append_assoc]
      · rw [taken_append, taken_startIo, taken_quiet hbegun.quiet, taken_finishEvents]
        rfl
    | waiting es hyield hes hlog =>
      refine ⟨_, hlog, ?_⟩
      rw [taken_startIo, taken_quiet hes]
      rfl
  | timer => exact hwoken (xtTimer_woken D B s)
  | resetBus => exact hwoken (xtResetBus_woken B s)

/-- A run takes the SRBs of its calls, in their order. -/
theorem xtRun_log (s : Xt δ) (calls : List XtCall) :
    ∃ es, (xtRun D B s calls).log = s.log ++ es ∧ taken es = handed calls := by
  induction calls generalizing s with
  | nil => exact ⟨[], (List.append_nil _).symm, rfl⟩
  | cons c calls ih =>
    obtain ⟨es, hes, htook⟩ := xtCall_log (D := D) (B := B) s c
    obtain ⟨fs, hfs, htaken⟩ := ih (xtCall D B s c)
    refine ⟨es ++ fs, by rw [xtRun_cons, hfs, hes, List.append_assoc], ?_⟩
    rw [taken_append, htook, htaken, ← handed_append, List.singleton_append]

theorem ticks_cons_le (c : XtCall) (calls : List XtCall) : ticks
    (c :: calls) ≤ ticks calls + 1 := by
  unfold ticks
  rw [List.countP_cons]
  split_ifs <;> omega

/-- A waiting write is completed after at most `XT_COMMIT_WAKES` ticks. -/
theorem Xt.Waiting.completes (hyield : B.yieldCommit = true) {srb : Srb} (h : s.Waiting srb)
    (hlog : protocol s.log = served.flatMap XtServed.events ++ [.startIo s.dxSrb srb])
    {calls : List XtCall} (hlegal : s.Legal D B calls)
    (hticks : XT_COMMIT_WAKES ≤ s.dxWakes + ticks calls) :
    ∃ es st, (xtRun D B s calls).log = s.log ++ es ∧ .srbStatus s.dxSrb st ∈ es := by
  induction calls generalizing s served srb with
  | nil => exact absurd h.dxWakes (Nat.not_lt_of_le hticks)
  | cons c calls ih =>
    obtain ⟨hmay, hlegal⟩ := hlegal
    have htick := ticks_cons_le c calls
    have hwoken : s.Woken B (xtCall D B s c) := by
      cases c with
      | startIo p srb' => exact absurd hmay (Xt.Waiting.not_may hlog p srb')
      | timer => exact xtTimer_woken D B s
      | resetBus => exact xtResetBus_woken B s
    obtain ⟨served', horder⟩ := Xt.InOrder.woken hyield (.inr ⟨srb, h, hlog⟩) hwoken
    rw [xtRun_cons]
    generalize xtCall D B s c = t at hlegal hwoken horder ⊢
    cases hwoken with
    | kept es hes hlog' htransport hsrb hpending hlook hwakes =>
      obtain ⟨hwakes, -⟩ := (hwakes hyield).resolve_left h.dxSrb
      rcases horder with ⟨hidle, -⟩ | ⟨srb', hwait, hserved⟩
      · exact absurd (hsrb.symm.trans hidle.dxSrb) h.dxSrb
      · obtain ⟨fs, st, hrun, hmem⟩ := ih hwait hserved hlegal (by omega)
        refine ⟨es ++ fs, st, by rw [hrun, hlog', List.append_assoc], ?_⟩
        exact List.mem_append_right es (hsrb ▸ hmem)
    | released es u st hes hlog' htransport hsrb hpending hopen hst ht =>
      obtain ⟨fs, hfs, -⟩ := xtRun_log (D := D) (B := B) t calls
      refine ⟨es ++ finishEvents s.dxSrb st ++ fs, st, ?_, ?_⟩
      · rw [hfs, ht, xtFinish_eq, hlog', List.append_assoc, List.append_assoc, List.append_assoc]
      · simp [finishEvents]

/-- In every legal run from a fresh driver each SRB is completed once, in its turn, and followed
by one `NextRequest`, but for a write that `dxSrb` names while its commit is pending ; the SRBs
are those of the calls, in their order ; and the waiting one is completed after at most
`XT_COMMIT_WAKES` ticks more. -/
theorem xtide_completes_once (hyield : B.yieldCommit = true) (hs : s.Fresh)
    {calls : List XtCall} (hlegal : s.Legal D B calls) :
    (∃ served, (xtRun D B s calls).InOrder served) ∧
      taken (xtRun D B s calls).log = handed calls ∧
      ∀ more : List XtCall, (xtRun D B s calls).Legal D B more →
        (xtRun D B s calls).dxSrb ≠ 0 → XT_COMMIT_WAKES ≤ ticks more →
          ∃ es st, (xtRun D B (xtRun D B s calls) more).log = (xtRun D B s calls).log ++ es ∧
            .srbStatus (xtRun D B s calls).dxSrb st ∈ es := by
  have hstart : s.InOrder [] := by
    refine .inl ⟨⟨hs.dxSrb, hs.commitPending⟩, ?_⟩
    rw [hs.log]
    rfl
  obtain ⟨served, horder⟩ := hstart.run hyield hlegal
  obtain ⟨es, hlog, htaken⟩ := xtRun_log (D := D) (B := B) s calls
  rw [hs.log, List.nil_append] at hlog
  refine ⟨⟨served, horder⟩, hlog ▸ htaken, fun more hmore hopen hticks => ?_⟩
  rcases horder with ⟨hidle, -⟩ | ⟨srb, hwait, hserved⟩
  · exact absurd hidle.dxSrb hopen
  · exact hwait.completes hyield hserved hmore (Nat.le_trans hticks (Nat.le_add_left ..))

end Drive

@[simp] theorem ticks_replicate (n : ℕ) : ticks (List.replicate n .timer) = n := by
  simp [ticks, List.countP_replicate]

/-- Ticks are always legal. -/
theorem Xt.legal_ticks {D : XtDrive δ} {B : XtBuild} :
    ∀ (n : ℕ) (s : Xt δ), s.Legal D B (List.replicate n .timer)
  | 0, _ => trivial
  | n + 1, s => ⟨trivial, Xt.legal_ticks n (xtCall D B s .timer)⟩

/-- A drive that is busy for `XT_COMMIT_POLLS` looks after its first block. -/
def slowDrive : XtDrive ℕ where
  inb _ n :=
    if n < 512 then (0x58, n)
    else if n < 512 + XT_COMMIT_POLLS then (0x80, n + 1)
    else (0x50, n)
  outb r _ n := if r = .data then n + 1 else n

/-- A write of the first sector to it, on a build that defers commits : it waits, and the ticks
complete it. -/
theorem xtide_completes_once_writeFirst :
    ∃ s : Xt ℕ, s = xtRun slowDrive ⟨true, true, true⟩
        (Xt.probed 0 (fun _ => smallCard) false) [.startIo 1 writeFirst] ∧
      s.dxSrb = 1 ∧ (∃ served, s.InOrder served) ∧ taken s.log = [(1, writeFirst)] ∧
      ∃ es st, (xtRun slowDrive ⟨true, true, true⟩ s
          (List.replicate XT_COMMIT_WAKES .timer)).log = s.log ++ es ∧ .srbStatus 1 st ∈ es := by
  have hlegal : (Xt.probed 0 (fun _ => smallCard) false).Legal slowDrive ⟨true, true, true⟩
      [.startIo 1 writeFirst] := ⟨⟨by decide, rfl⟩, trivial⟩
  have hwaits : (xtRun slowDrive ⟨true, true, true⟩ (Xt.probed 0 (fun _ => smallCard) false)
      [.startIo 1 writeFirst]).dxSrb = 1 := by
    decide +kernel
  obtain ⟨horder, htaken, hdone⟩ := xtide_completes_once rfl ⟨rfl, rfl, rfl⟩ hlegal
  obtain ⟨es, st, hlog, hmem⟩ := hdone (List.replicate XT_COMMIT_WAKES .timer)
    (Xt.legal_ticks ..) (by rw [hwaits]; decide) (ticks_replicate _).ge
  exact ⟨_, rfl, hwaits, horder, htaken, es, st, hlog, hwaits ▸ hmem⟩

end Inboard
