import Inboard.XtSectors

/-!
# Success only over settled blocks

What `SRB_STATUS_SUCCESS` says of the drive : every block of the request went under a status
that asked for it, and for a WRITE a status with BSY=0 and ERR=0 followed the last block of
every command (`xtide_success_committed`). The transfer either ends so or leaves its last
command committing (`xtXferLoop_ends`), and what `XtTimer` then reads settles it.
-/

set_option linter.unusedSectionVars false

namespace Inboard

open Ata (Device looks)

variable {δ : Type*}

/-! ## Blocks delivered -/

/-- On a drive with nothing in progress the accesses move `n` blocks, each asked for. In a
WRITE every command finds the drive settled, and it is left settled if `ended`. -/
def Delivers (w : Ata.Wiring) (write : Bool) (n : ℕ) (ended : Bool) (as : List Ata.Access) : Prop :=
  ∀ (geom : Bool → Ata.Geometry) (d : Device), d.buf = [] → ∃ cs ms,
    d.Added (d.run w geom as) cs ms ∧ ms.length = n ∧
      (∀ m ∈ ms, m.write = write ∧ m.asked = true) ∧
      (write = true → d.settled = true → (∀ c ∈ cs, c.settled = true) ∧
        (ended = true → (d.run w geom as).settled = true))

/-- A device that has moved `n` blocks, each asked for ; in a WRITE a status with BSY=0 and ERR=0
was read after the last block of each command. -/
structure Completed (d : Device) (write : Bool) (n : ℕ) : Prop where
  stray : d.stray = false
  length : d.moved.length = n
  asked : ∀ m ∈ d.moved, m.write = write ∧ m.asked = true
  commands : write = true → ∀ c ∈ d.issued, c.settled = true
  settled : write = true → d.settled = true

theorem Delivers.completed {w : Ata.Wiring} {write : Bool} {n : ℕ} {as : List Ata.Access}
    (h : Delivers w write n true as) (geom : Bool → Ata.Geometry) (tf : Ata.TaskFile) :
    Completed ((Device.idle tf).run w geom as) write n := by
  obtain ⟨cs, ms, hadded, hlen, hms, hcs⟩ := h geom (Device.idle tf) rfl
  refine ⟨hadded.stray, ?_, ?_, fun hwrite => ?_, fun hwrite => (hcs hwrite rfl).2 rfl⟩
  · rw [hadded.moved]
    exact hlen
  · rw [hadded.moved]
    exact hms
  · rw [hadded.issued]
    exact (hcs hwrite rfl).1

theorem Delivers.nil (w : Ata.Wiring) (write ended : Bool) : Delivers w write 0 ended [] :=
  fun _ d hbuf => ⟨[], [], ⟨(List.append_nil _).symm, (List.append_nil _).symm, rfl, hbuf⟩, rfl,
    by simp, fun _ hsettled => ⟨by simp, fun _ => hsettled⟩⟩

theorem Delivers.append {w : Ata.Wiring} {write ended : Bool} {m n : ℕ} {as bs : List Ata.Access}
    (h : Delivers w write m true as) (h' : Delivers w write n ended bs) :
    Delivers w write (m + n) ended (as ++ bs) := by
  intro geom d hbuf
  obtain ⟨cs, ms, hadded, hlen, hms, hcs⟩ := h geom d hbuf
  obtain ⟨cs', ms', hadded', hlen', hms', hcs'⟩ := h' geom _ hadded.buf
  rw [Device.run_append]
  refine ⟨cs ++ cs', ms ++ ms', hadded.trans hadded', by simp [hlen, hlen'], ?_, ?_⟩
  · exact List.forall_mem_append.2 ⟨hms, hms'⟩
  · intro hwrite hsettled
    obtain ⟨hcmds, hend⟩ := hcs hwrite hsettled
    obtain ⟨hcmds', hend'⟩ := hcs' hwrite (hend rfl)
    exact ⟨List.forall_mem_append.2 ⟨hcmds, hcmds'⟩, hend'⟩

/-- A look at the drive later on. -/
theorem Delivers.look {w : Ata.Wiring} {n : ℕ} {as : List Ata.Access}
    (h : Delivers w true n false as) {v : UInt8} {ended : Bool}
    (hv : ended = true → Ata.settledStatus v = true) :
    Delivers w true n ended (as ++ [.inb .altStatus v]) := by
  intro geom d hbuf
  obtain ⟨cs, ms, hadded, hlen, hms, hcs⟩ := h geom d hbuf
  have hlook := (Device.added_looks w geom hadded.buf [v]).1
  obtain ⟨settled, hrun, hsettle⟩ := Device.run_looks_last w geom hadded.buf [] v
  rw [Device.run_append]
  refine ⟨cs, ms, ?_, hlen, hms, fun hwrite hsettled => ⟨(hcs hwrite hsettled).1, fun hended => ?_⟩⟩
  · have htrans := hadded.trans hlook
    rwa [List.append_nil, List.append_nil] at htrans
  · have hlooked : (d.run w geom as).run w geom [.inb .altStatus v] =
        (d.run w geom as).looked (some v) settled := hrun
    rw [hlooked]
    exact hsettle (.inr (hv hended))

@[simp] theorem length_blocks (x : Ata.Transfer) (bs : List (List UInt8)) :
    (x.blocks bs).length = bs.length := by
  induction bs generalizing x with
  | nil => rfl
  | cons b bs ih => simp [Ata.Transfer.blocks, ih]

theorem asked_of_mem_blocks {x : Ata.Transfer} {bs : List (List UInt8)} {m : Ata.Block}
    (h : m ∈ x.blocks bs) : m.write = x.write ∧ m.asked = true := by
  induction bs generalizing x with
  | nil => simp [Ata.Transfer.blocks] at h
  | cons b bs ih =>
    rcases List.mem_cons.1 h with rfl | h
    · exact ⟨rfl, rfl⟩
    · exact ih (x := x.after 1) h

/-- A command that cleared the carry moved all its blocks. -/
theorem Xt.Commanded.delivers {s t : Xt δ} {n : ℕ} {write ended : Bool} {as : List Ata.Access}
    {blocks : List (List UInt8)} (h : s.Commanded n write true t as blocks)
    (hend : ended = true → write = true → EndsSettled s.activeTransport.wiring as) :
    Delivers s.activeTransport.wiring write n ended as := by
  intro geom d hbuf
  rcases h.serves geom d hbuf with ⟨hok, -⟩ | ⟨o, settled, -, hsettled, hadded⟩
  · exact absurd hok (by simp)
  · refine ⟨_, _, hadded, ?_, fun m hm => asked_of_mem_blocks hm,
      fun hwrite hd => ⟨?_, fun hended => ?_⟩⟩
    · rw [length_blocks]
      exact h.all rfl
    · simpa using hsettled hd
    · exact hend hended hwrite geom d hadded.buf

section Commands

variable (D : XtDrive δ) (B : XtBuild)

/-- From `s` to `t` a transfer was run : over if it failed, and delivered if it did not ; or
its last command was left committing. -/
def Xt.Ends (s : Xt δ) (ok : Bool) (t : Xt δ) (as : List Ata.Access) : Prop :=
  (t.commitPending = s.commitPending ∧
      (ok = true → Delivers s.activeTransport.wiring s.reqIsWrite s.reqCount true as)) ∨
    (B.yieldCommit = true ∧ s.reqIsWrite = true ∧ ok = true ∧ t.commitPending = true ∧
      Delivers s.activeTransport.wiring true s.reqCount false as)

variable {B} in
/-- A chunk that is not the last, and the end of what follows it. -/
theorem Xt.Ends.after {s t u : Xt δ} {ok : Bool} {ecx : ℕ} {as as' : List Ata.Access}
    (hsent : s.Sent as t) (hle : ecx ≤ s.reqCount)
    (hpending : t.commitPending = s.commitPending)
    (hfirst : Delivers s.activeTransport.wiring s.reqIsWrite ecx true as)
    (hnext : (t.onward ecx (s.reqCount - ecx)).Ends B ok u as') : s.Ends B ok u (as ++ as') := by
  have hsum : s.reqCount = ecx + (s.reqCount - ecx) := (Nat.add_sub_cancel' hle).symm
  unfold Xt.Ends Xt.onward at hnext
  dsimp only at hnext
  rw [hsent.activeTransport, hsent.reqIsWrite] at hnext
  unfold Xt.Ends
  rcases hnext with ⟨hover, hall⟩ | ⟨hyield, hwrite, hok, hover, hall⟩
  · refine .inl ⟨hover.trans hpending, fun hok => ?_⟩
    rw [hsum]
    exact hfirst.append (hall hok)
  · refine .inr ⟨hyield, hwrite, hok, hover, ?_⟩
    rw [hsum]
    rw [hwrite] at hfirst
    exact hfirst.append hall

/-- `XTIDE_XferRun` clears the carry over the whole request only. -/
theorem xtXferLoop_ends (s : Xt δ) :
    ∃ as, s.Sent as (xtXferLoop D B s).2 ∧ (s.reqCount ≠ 0 → as ≠ []) ∧
      s.Ends B (xtXferLoop D B s).1 (xtXferLoop D B s).2 as := by
  unfold xtXferLoop
  split_ifs with hzero
  · refine ⟨[], ⟨by simp, rfl, rfl, rfl, rfl, rfl, rfl, rfl, rfl, rfl, rfl⟩,
      fun h => absurd hzero h, .inl ⟨rfl, fun _ => ?_⟩⟩
    rw [hzero]
    exact Delivers.nil _ _ _
  · dsimp only
    obtain ⟨hne, hle, hmax, -⟩ := chunk_bounds hzero
    generalize min s.reqCount XT_MAX_CHUNK = ecx at hne hle hmax ⊢
    obtain ⟨as, blocks, hcmd, hend⟩ := xtChunk_spec D B ecx (s.reqCount - ecx) s hne hmax
    generalize xtChunk D B ecx (s.reqCount - ecx) s = r at hcmd hend ⊢
    obtain ⟨ok, t⟩ := r
    cases ok with
    | false =>
      refine ⟨as, hcmd.sent, fun _ => hcmd.ne, ?_⟩
      rcases hend with ⟨hpending, -⟩ | ⟨-, -, -, hok, -⟩
      · exact .inl ⟨hpending, by simp⟩
      · exact absurd hok (by simp)
    | true =>
      dsimp only
      split_ifs with hrest
      · obtain rfl : ecx = s.reqCount := by omega
        refine ⟨as, hcmd.sent.request _ t.reqLba t.reqBuf, fun _ => hcmd.ne, ?_⟩
        rcases hend with ⟨hpending, hsettle⟩ | ⟨hyield, hwrite, -, -, hpending⟩
        · exact .inl ⟨hpending, fun _ => hcmd.delivers fun _ => hsettle rfl⟩
        · rw [hwrite] at hcmd
          exact .inr ⟨hyield, hwrite, rfl, hpending, hcmd.delivers (by simp)⟩
      · have hfirst : t.commitPending = s.commitPending ∧
            Delivers s.activeTransport.wiring s.reqIsWrite ecx true as := by
          rcases hend with ⟨hpending, hsettle⟩ | ⟨-, -, hzero, -⟩
          · exact ⟨hpending, hcmd.delivers fun _ => hsettle rfl⟩
          · exact absurd hzero hrest
        obtain ⟨as', hsent', -, hnext⟩ := xtXferLoop_ends (t.onward ecx (s.reqCount - ecx))
        exact ⟨as ++ as', (hcmd.sent.onward ecx _).trans hsent',
          fun _ => List.append_ne_nil_of_left_ne_nil hcmd.ne as',
          .after hcmd.sent hle hfirst.1 hfirst.2 hnext⟩
termination_by s.reqCount
decreasing_by
  simp only [Xt.onward]
  omega

theorem xtideXferRun_ends (s : Xt δ) :
    ∃ as, s.Sent as (xtideXferRun D B s).2 ∧ (s.reqCount ≠ 0 → as ≠ []) ∧
      Xt.Ends B { s with commitPending := if B.yieldCommit then false else s.commitPending }
        (xtideXferRun D B s).1 (xtideXferRun D B s).2 as := by
  unfold xtideXferRun
  split_ifs
  · obtain ⟨as, hsent, hne, hends⟩ := xtXferLoop_ends D B { s with commitPending := false }
    refine ⟨as, ?_, hne, hends⟩
    exact ⟨hsent.log, hsent.stride, hsent.activeTransport, hsent.tryUnit, hsent.slavePresent,
      hsent.geom, hsent.units, hsent.reqIsWrite, hsent.inquiry, hsent.dxSrb, hsent.dxWakes⟩
  · exact xtXferLoop_ends D B s

end Commands

/-! ## How an SRB is left -/

/-- The READ or WRITE an SRB asks for. -/
def Srb.request? (srb : Srb) : Option XtRequest :=
  if srb.function = .executeScsi then cdbRequest srb.cdb else none

/-- Events that neither start nor end a request. -/
def XtEvent.quiet : XtEvent → Bool
  | .startIo _ _ | .srbStatus _ _ | .requestComplete _ | .nextRequest => false
  | _ => true

/-- The accesses among the events. -/
def accesses (es : List XtEvent) : List Ata.Access := es.filterMap XtEvent.access?

@[simp] theorem accesses_append (es fs : List XtEvent) :
    accesses (es ++ fs) = accesses es ++ accesses fs :=
  List.filterMap_append ..

@[simp] theorem accesses_access (as : List Ata.Access) : accesses (as.map .access) = as := by
  induction as with
  | nil => rfl
  | cons a as ih => exact congrArg (a :: ·) ih

theorem quiet_access (as : List Ata.Access) : ∀ e ∈ as.map XtEvent.access, e.quiet = true := by
  simp [XtEvent.quiet]

/-- The blocks of the READ or WRITE that `srb` asks for were delivered. -/
def Srb.Delivered (w : Ata.Wiring) (srb : Srb) (as : List Ata.Access) : Prop :=
  ∀ r, srb.request? = some r → Delivers w r.isWrite r.count true as

/-- `srb` is a WRITE whose last command is committing. -/
def Srb.Committing (w : Ata.Wiring) (srb : Srb) (as : List Ata.Access) : Prop :=
  ∃ r, srb.request? = some r ∧ r.isWrite = true ∧ Delivers w true r.count false as

/-- From `s` to `u` the SRB at `p` was taken, and is open. -/
structure Xt.Begun (B : XtBuild) (p : UInt32) (srb : Srb) (s : Xt δ) (es : List XtEvent)
    (u : Xt δ) : Prop where
  quiet : ∀ e ∈ es, e.quiet = true
  log : u.log = s.log ++ .startIo p srb :: es
  activeTransport : u.activeTransport = s.activeTransport
  dxSrb : u.dxSrb = s.dxSrb
  commitPending : B.yieldCommit = true → s.commitPending = false → u.commitPending = false

/-- How `XtStartIo` leaves the SRB at `p` : finished, or waiting for `XtTimer`. -/
inductive Xt.Started (B : XtBuild) (p : UInt32) (srb : Srb) (s t : Xt δ) : Prop
  | finished (es : List XtEvent) (u : Xt δ) (st : SrbStatus) (h : s.Begun B p srb es u)
      (hst : st = .success → srb.Delivered s.activeTransport.wiring (accesses es))
      (ht : t = xtFinish p st u)
  | waiting (es : List XtEvent) (hyield : B.yieldCommit = true)
      (hes : ∀ e ∈ es, e.quiet = true) (hlog : t.log = s.log ++ .startIo p srb :: es)
      (htransport : t.activeTransport = s.activeTransport) (hsrb : t.dxSrb = p)
      (hwakes : t.dxWakes = 0) (hpending : t.commitPending = true)
      (h : srb.Committing s.activeTransport.wiring (accesses es))

section Drive

variable {B : XtBuild} {p : UInt32} {srb : Srb} {s u : Xt δ} {es : List XtEvent}

theorem Xt.Begun.say (h : s.Begun B p srb es u) {e : XtEvent} (he : e.quiet = true) :
    s.Begun B p srb (es ++ [e]) (u.say e) where
  quiet := List.forall_mem_append.2 ⟨h.quiet, by simpa using he⟩
  log := by simp [Xt.say, h.log]
  activeTransport := h.activeTransport
  dxSrb := h.dxSrb
  commitPending := h.commitPending

/-- A finish that says nothing of blocks. -/
theorem Xt.Begun.refused (h : s.Begun B p srb es u) {st : SrbStatus} (hst : st ≠ .success) :
    s.Started B p srb (xtFinish p st u) :=
  .finished es u st h (fun hsuccess => absurd hsuccess hst) rfl

/-- An SRB that is no READ or WRITE. -/
theorem Xt.Begun.answered (h : s.Begun B p srb es u) (hnone : srb.request? = none)
    (st : SrbStatus) : s.Started B p srb (xtFinish p st u) := by
  refine .finished es u st h (fun _ r hr => ?_) rfl
  rw [hnone] at hr
  exact absurd hr (by simp)

theorem Xt.Begun.copied (h : s.Begun B p srb es u) (hnone : srb.request? = none)
    (reply : List UInt8) : s.Started B p srb (xtCopyOut p srb reply u) := by
  unfold xtCopyOut
  split_ifs
  · exact h.answered hnone .invalidRequest
  · have hstored (mem : UInt32 → UInt8) : s.Begun B p srb es { u with mem := mem } :=
      ⟨h.quiet, h.log, h.activeTransport, h.dxSrb, h.commitPending⟩
    exact ((hstored _).say rfl).answered hnone .success

variable (D : XtDrive δ)

/-- A READ or WRITE that comes to the transfer. -/
theorem Xt.Begun.transferRun (h : s.Begun B p srb [] u)
    (hr : srb.request? = some ⟨u.reqIsWrite, u.reqLba, u.reqCount⟩) :
    s.Started B p srb (xtTransferRun D B p u) := by
  obtain ⟨as, hsent, -, hends⟩ := xtideXferRun_ends D B u
  unfold xtTransferRun
  unfold Xt.Ends at hends
  dsimp only at hends
  generalize xtideXferRun D B u = q at hsent hends ⊢
  obtain ⟨ok, t⟩ := q
  have hlog : t.log = s.log ++ .startIo p srb :: as.map .access := by
    rw [hsent.log, h.log]
    simp
  have hbegun (hpending : t.commitPending = if B.yieldCommit then false else u.commitPending) :
      s.Begun B p srb (as.map .access) t :=
    ⟨quiet_access as, hlog, hsent.activeTransport.trans h.activeTransport,
      hsent.dxSrb.trans h.dxSrb, fun hyield _ => by rw [hpending, if_pos hyield]⟩
  rw [h.activeTransport] at hends
  rcases hends with ⟨hpending, hall⟩ | ⟨hyield, hwrite, rfl, hpending, hall⟩
  · cases ok with
    | false => exact (hbegun hpending).refused nofun
    | true =>
      have hdone : ¬(B.yieldCommit && t.commitPending) = true := by
        rw [hpending]
        cases B.yieldCommit <;> simp
      dsimp only
      rw [if_neg hdone]
      refine .finished _ t .success (hbegun hpending) (fun _ r hr' => ?_) rfl
      obtain rfl := Option.some.inj (hr.symm.trans hr')
      rw [accesses_access]
      exact hall rfl
  · have hwait : (B.yieldCommit && t.commitPending) = true := by rw [hyield, hpending]; rfl
    dsimp only
    rw [if_pos hwait]
    refine .waiting (as.map .access ++ [.requestTimerCall XT_COMMIT_TIMER_US]) hyield
      (List.forall_mem_append.2 ⟨quiet_access as, by simp [XtEvent.quiet]⟩) ?_
      (hsent.activeTransport.trans h.activeTransport) rfl rfl hpending ⟨_, hr, hwrite, ?_⟩
    · simp [xtYield, Xt.say, hlog]
    · rw [accesses_append, accesses_access]
      exact (List.append_nil as).symm ▸ hall

theorem Xt.Begun.transfer (h : s.Begun B p srb [] u)
    (hr : srb.request? = some ⟨u.reqIsWrite, u.reqLba, u.reqCount⟩) :
    s.Started B p srb (xtTransfer D B p srb u) := by
  unfold xtTransfer
  split_ifs with hzero
  · refine .finished [] u .success h (fun _ r hr' => ?_) rfl
    obtain rfl := Option.some.inj (hr.symm.trans hr')
    rw [hzero]
    exact Delivers.nil _ _ _
  · exact h.refused nofun
  · exact h.refused nofun
  · exact Xt.Begun.transferRun D
      ⟨h.quiet, h.log, h.activeTransport, h.dxSrb, h.commitPending⟩ hr

theorem Xt.Begun.command (h : s.Begun B p srb [] u) (hexec : srb.function = .executeScsi) :
    s.Started B p srb (xtCommand D B p srb u) := by
  have hrequest : srb.request? = cdbRequest srb.cdb := if_pos hexec
  unfold xtCommand
  split
  · next r heq =>
    exact Xt.Begun.transfer D ⟨h.quiet, h.log, h.activeTransport, h.dxSrb, h.commitPending⟩
      (hrequest.trans heq)
  · next heq =>
    have hnone := hrequest.trans heq
    unfold xtReadCapacity
    split_ifs
    · exact h.copied hnone _
    · exact h.answered hnone _
    · exact h.copied hnone _
    · exact h.copied hnone _
    · exact h.answered hnone _
    · exact h.answered hnone _

/-- `XtStartIo` finishes the SRB, or leaves a WRITE that is committing. -/
theorem xtStartIo_started (p : UInt32) (srb : Srb) (s : Xt δ) :
    s.Started B p srb (xtStartIo D B p srb s) := by
  have hbegun : s.Begun B p srb [] (s.say (.startIo p srb)) :=
    ⟨by simp, rfl, rfl, rfl, fun _ h => h⟩
  unfold xtStartIo
  by_cases hexec : srb.function = .executeScsi
  · rw [hexec]
    dsimp only
    unfold xtExecute
    split_ifs
    · exact hbegun.refused nofun
    · exact Xt.Begun.command D ⟨hbegun.quiet, hbegun.log, rfl, rfl, fun _ h => h⟩ hexec
    · exact hbegun.refused nofun
  · have hnone : srb.request? = none := if_neg hexec
    dsimp only
    split
    · next heq => exact absurd heq hexec
    all_goals exact hbegun.answered hnone _

end Drive

/-! ## How a waiting SRB is left -/

/-- How `XtTimer` and `XtResetBus` leave the SRB that is waiting, if one is. -/
inductive Xt.Woken (B : XtBuild) (s t : Xt δ) : Prop
  | kept (es : List XtEvent) (hes : ∀ e ∈ es, e.quiet = true) (hlog : t.log = s.log ++ es)
      (htransport : t.activeTransport = s.activeTransport) (hsrb : t.dxSrb = s.dxSrb)
      (hpending : t.commitPending = s.commitPending)
      (hlook : accesses es = [] ∨ ∃ v, accesses es = [.inb .altStatus v])
      (hwakes : B.yieldCommit = true →
        s.dxSrb = 0 ∨ t.dxWakes = s.dxWakes + 1 ∧ t.dxWakes < XT_COMMIT_WAKES)
  | released (es : List XtEvent) (u : Xt δ) (st : SrbStatus) (hes : ∀ e ∈ es, e.quiet = true)
      (hlog : u.log = s.log ++ es) (htransport : u.activeTransport = s.activeTransport)
      (hsrb : u.dxSrb = 0) (hpending : u.commitPending = false) (hopen : s.dxSrb ≠ 0)
      (hst : st = .success → ∃ v, accesses es = [.inb .altStatus v] ∧ Ata.settledStatus v = true)
      (ht : t = xtFinish s.dxSrb st u)

/-- The end of a wait. -/
theorem Xt.Woken.release {B : XtBuild} {s u : Xt δ} {es : List XtEvent} (st : SrbStatus)
    (hes : ∀ e ∈ es, e.quiet = true) (hlog : u.log = s.log ++ es)
    (htransport : u.activeTransport = s.activeTransport) (hsrb : u.dxSrb = s.dxSrb)
    (hpending : u.commitPending = false) (hopen : s.dxSrb ≠ 0)
    (hst : st = .success → ∃ v, accesses es = [.inb .altStatus v] ∧ Ata.settledStatus v = true) :
    s.Woken B (xtRelease st u) :=
  .released es { u with dxSrb := 0 } st hes hlog htransport rfl hpending hopen hst
    (by rw [xtRelease, hsrb])

section Drive

variable (D : XtDrive δ) (B : XtBuild)

/-- One look at the drive of a waiting SRB. -/
theorem xtWake_woken {s : Xt δ} (hopen : s.dxSrb ≠ 0) :
    s.Woken B (xtWake D (s.say .timer)) := by
  have hlog :
      (s.say .timer).log ++ [.access (.inb .altStatus ((s.say .timer).inb D .altStatus).1)] =
      s.log ++ [.timer, .access (.inb .altStatus ((s.say .timer).inb D .altStatus).1)] := by
    simp [Xt.say]
  unfold xtWake xtideCommitPoll
  dsimp only
  by_cases hbusy : Ata.busy ((s.say .timer).inb D .altStatus).1 = true
  · rw [if_pos hbusy]
    dsimp only
    split_ifs with hwakes
    · exact .release .timeout (by simp [XtEvent.quiet]) hlog rfl rfl rfl hopen (by simp)
    · refine .kept [.timer, .access (.inb .altStatus ((s.say .timer).inb D .altStatus).1),
        .requestTimerCall XT_COMMIT_TIMER_US] (by simp [XtEvent.quiet]) ?_ rfl rfl rfl
        (.inr ⟨_, rfl⟩) fun _ => .inr ⟨rfl, Nat.lt_of_not_le hwakes⟩
      exact (congrArg (· ++ [.requestTimerCall XT_COMMIT_TIMER_US]) hlog).trans
        (List.append_assoc ..)
  · rw [if_neg hbusy]
    by_cases herr : Ata.err ((s.say .timer).inb D .altStatus).1 = true
    · rw [if_pos herr]
      exact .release .error (by simp [XtEvent.quiet]) hlog rfl rfl rfl hopen (by simp)
    · rw [if_neg herr]
      refine .release .success (by simp [XtEvent.quiet]) hlog rfl rfl rfl hopen
        fun _ => ⟨_, rfl, ?_⟩
      simp [Ata.settledStatus, hbusy, herr]

theorem xtTimer_woken (s : Xt δ) : s.Woken B (xtTimer D B s) := by
  unfold xtTimer
  dsimp only
  split_ifs with hyield hnone
  · exact .kept [.timer] (by simp [XtEvent.quiet]) rfl rfl rfl rfl (.inl rfl) fun _ => .inl hnone
  · exact xtWake_woken D B hnone
  · exact .kept [] (by simp) (List.append_nil _).symm rfl rfl rfl (.inl rfl) fun h =>
      absurd h hyield

theorem xtResetBus_woken (s : Xt δ) : s.Woken B (xtResetBus B s) := by
  unfold xtResetBus
  dsimp only
  split_ifs with hopen
  · obtain ⟨-, hopen⟩ := Bool.and_eq_true_iff.1 hopen
    have hlog : ((s.say .resetBus).say (.requestTimerCall 0)).log =
        s.log ++ [.resetBus, .requestTimerCall 0] := List.append_assoc ..
    exact .release .busReset (by simp [XtEvent.quiet]) hlog rfl rfl rfl
      (by simpa [Xt.say] using hopen) nofun
  · refine .kept [.resetBus] (by simp [XtEvent.quiet]) rfl rfl rfl rfl (.inl rfl) fun hyield => ?_
    refine .inl ?_
    simpa [hyield, Xt.say] using hopen

end Drive

/-! ## The log of a run -/

/-- The SRB that is open, and the accesses made for it. -/
structure XtOpen where
  p : UInt32
  srb : Srb
  made : List Ata.Access

/-- What is open after an event. -/
def xtNext : Option XtOpen → XtEvent → Option XtOpen
  | _, .startIo p srb => some ⟨p, srb, []⟩
  | _, .srbStatus _ _ => none
  | o, .access a => o.map fun q => { q with made := q.made ++ [a] }
  | o, _ => o

/-- The event is no success of an open SRB whose blocks were not delivered. -/
def XtEvent.Truthful (w : Ata.Wiring) (o : Option XtOpen) (e : XtEvent) : Prop :=
  ∀ q, o = some q → e = .srbStatus q.p .success → q.srb.Delivered w q.made

/-- So are all the events, from what is open on. -/
def Truthful (w : Ata.Wiring) : Option XtOpen → List XtEvent → Prop
  | _, [] => True
  | o, e :: es => e.Truthful w o ∧ Truthful w (xtNext o e) es

section Log

variable {w : Ata.Wiring} {o : Option XtOpen} {es : List XtEvent}

theorem truthful_append (fs : List XtEvent) :
    Truthful w o (es ++ fs) ↔ Truthful w o es ∧ Truthful w (es.foldl xtNext o) fs := by
  induction es generalizing o with
  | nil => simp [Truthful]
  | cons e es ih => simp [Truthful, ih, and_assoc]

/-- Between a start and an end only accesses are added. -/
theorem foldl_xtNext (hes : ∀ e ∈ es, (∀ p srb, e ≠ .startIo p srb) ∧ ∀ p st, e ≠ .srbStatus p st) :
    es.foldl xtNext o = o.map fun q => { q with made := q.made ++ accesses es } := by
  induction es generalizing o with
  | nil => simp [accesses]
  | cons e es ih =>
    obtain ⟨he, hes⟩ := List.forall_mem_cons.1 hes
    rw [List.foldl_cons, ih hes]
    cases e with
    | startIo p srb => exact absurd rfl (he.1 p srb)
    | srbStatus p st => exact absurd rfl (he.2 p st)
    | access a => simp [xtNext, accesses, XtEvent.access?, Function.comp_def]
    | _ => rfl

theorem not_bracket_of_quiet (hes : ∀ e ∈ es, e.quiet = true) :
    ∀ e ∈ es, (∀ p srb, e ≠ .startIo p srb) ∧ ∀ p st, e ≠ .srbStatus p st := by
  intro e he
  have hquiet := hes e he
  refine ⟨?_, ?_⟩
  · rintro p srb rfl
    simp [XtEvent.quiet] at hquiet
  · rintro p st rfl
    simp [XtEvent.quiet] at hquiet

theorem truthful_quiet (hes : ∀ e ∈ es, e.quiet = true) : Truthful w o es := by
  induction es generalizing o with
  | nil => trivial
  | cons e es ih =>
    obtain ⟨he, hes⟩ := List.forall_mem_cons.1 hes
    refine ⟨?_, ih hes⟩
    rintro q - rfl
    simp [XtEvent.quiet] at he

/-- A finish leaves nothing open. -/
theorem foldl_finishEvents (p : UInt32) (st : SrbStatus) :
    (finishEvents p st).foldl xtNext o = none :=
  rfl

theorem truthful_finishEvents {p : UInt32} {st : SrbStatus}
    (h : ∀ q, o = some q → q.p = p → st = .success → q.srb.Delivered w q.made) :
    Truthful w o (finishEvents p st) := by
  refine ⟨?_, nofun, nofun, trivial⟩
  intro q hq heq
  obtain ⟨rfl, rfl⟩ := XtEvent.srbStatus.inj heq
  exact h q hq rfl rfl

/-- A success that follows its start is one of blocks delivered. -/
theorem Truthful.delivered {pre mid post : List XtEvent} {p : UInt32} {srb : Srb}
    (h : Truthful w none (pre ++ .startIo p srb :: (mid ++ .srbStatus p .success :: post)))
    (hmid : ∀ e ∈ mid, (∀ q srb', e ≠ .startIo q srb') ∧ ∀ q st, e ≠ .srbStatus q st) :
    srb.Delivered w (accesses mid) := by
  obtain ⟨-, -, hrest⟩ := (truthful_append _).1 h
  obtain ⟨hend, -⟩ := ((truthful_append _).1 hrest).2
  rw [foldl_xtNext hmid] at hend
  exact hend _ rfl rfl

end Log

/-- Between calls the log is truthful, and an SRB still open is a WRITE that is committing. -/
structure Xt.Honest (w : Ata.Wiring) (s : Xt δ) : Prop where
  wiring : s.activeTransport.wiring = w
  log : Truthful w none s.log
  committing : ∀ q, s.log.foldl xtNext none = some q → q.srb.Committing w q.made

section Drive

variable {D : XtDrive δ} {B : XtBuild} {w : Ata.Wiring} {s t : Xt δ}

/-- What a finish adds to the log. -/
theorem Xt.Honest.finish {u : Xt δ} {p : UInt32} {st : SrbStatus}
    (hwiring : u.activeTransport.wiring = w) (h : Truthful w none u.log)
    (hst : ∀ q, u.log.foldl xtNext none = some q → q.p = p → st = .success →
      q.srb.Delivered w q.made) : (xtFinish p st u).Honest w := by
  rw [xtFinish_eq]
  refine ⟨hwiring, (truthful_append _).2 ⟨h, truthful_finishEvents hst⟩, fun q hq => ?_⟩
  rw [List.foldl_append, foldl_finishEvents] at hq
  exact absurd hq (by simp)

theorem Xt.Honest.startIo (h : s.Honest w) {p : UInt32} {srb : Srb} (ht : s.Started B p srb t) :
    t.Honest w := by
  have hstart (es : List XtEvent) (hes : ∀ e ∈ es, e.quiet = true) :
      Truthful w none (s.log ++ .startIo p srb :: es) ∧
        (s.log ++ .startIo p srb :: es).foldl xtNext none = some ⟨p, srb, accesses es⟩ := by
    refine ⟨(truthful_append _).2 ⟨h.log, nofun, truthful_quiet hes⟩, ?_⟩
    rw [List.foldl_append, List.foldl_cons, foldl_xtNext (not_bracket_of_quiet hes)]
    rfl
  cases ht with
  | finished es u st hbegun hst ht =>
    obtain ⟨htrue, hfold⟩ := hstart es hbegun.quiet
    rw [ht]
    refine .finish (hbegun.activeTransport ▸ h.wiring)
        (hbegun.log ▸ htrue) fun q hq hp hsuccess => ?_
    rw [hbegun.log, hfold] at hq
    obtain rfl := Option.some.inj hq
    have hdelivered := hst hsuccess
    rwa [h.wiring] at hdelivered
  | waiting es hyield hes hlog htransport hsrb hwakes hpending hwait =>
    obtain ⟨htrue, hfold⟩ := hstart es hes
    refine ⟨htransport ▸ h.wiring, hlog ▸ htrue, fun q hq => ?_⟩
    rw [hlog, hfold] at hq
    obtain rfl := Option.some.inj hq
    rwa [h.wiring] at hwait

theorem Xt.Honest.woken (h : s.Honest w) (ht : s.Woken B t) : t.Honest w := by
  have hquiet (es : List XtEvent) (hes : ∀ e ∈ es, e.quiet = true) :
      Truthful w none (s.log ++ es) ∧ ∀ q, (s.log ++ es).foldl xtNext none = some q →
        ∃ q', s.log.foldl xtNext none = some q' ∧ q =
            { q' with made := q'.made ++ accesses es } := by
    refine ⟨(truthful_append _).2 ⟨h.log, truthful_quiet hes⟩, fun q hq => ?_⟩
    rw [List.foldl_append, foldl_xtNext (not_bracket_of_quiet hes)] at hq
    obtain ⟨q', hq', rfl⟩ := Option.map_eq_some_iff.1 hq
    exact ⟨q', hq', rfl⟩
  cases ht with
  | kept es hes hlog htransport hsrb hpending hlook hwakes =>
    obtain ⟨htrue, hfold⟩ := hquiet es hes
    refine ⟨htransport ▸ h.wiring, hlog ▸ htrue, fun q hq => ?_⟩
    rw [hlog] at hq
    obtain ⟨q', hq', rfl⟩ := hfold q hq
    obtain ⟨r, hr, hwrite, hdelivers⟩ := h.committing q' hq'
    refine ⟨r, hr, hwrite, ?_⟩
    rcases hlook with hnone | ⟨v, hlook⟩
    · simpa [hnone] using hdelivers
    · rw [hlook]
      exact hdelivers.look nofun
  | released es u st hes hlog htransport hsrb hpending hopen hst ht =>
    obtain ⟨htrue, hfold⟩ := hquiet es hes
    rw [ht]
    refine .finish (htransport ▸ h.wiring) (hlog ▸ htrue) fun q hq _ hsuccess => ?_
    rw [hlog] at hq
    obtain ⟨q', hq', rfl⟩ := hfold q hq
    obtain ⟨r, hr, hwrite, hdelivers⟩ := h.committing q' hq'
    obtain ⟨v, hlook, hv⟩ := hst hsuccess
    intro r' hr'
    obtain rfl := Option.some.inj (hr.symm.trans hr')
    rw [hwrite, hlook]
    exact hdelivers.look fun _ => hv

theorem Xt.Honest.call (h : s.Honest w) : ∀ c, (xtCall D B s c).Honest w
  | .startIo p srb => h.startIo (xtStartIo_started D p srb s)
  | .timer => h.woken (xtTimer_woken D B s)
  | .resetBus => h.woken (xtResetBus_woken B s)

theorem Xt.Honest.run (h : s.Honest w) (calls : List XtCall) : (xtRun D B s calls).Honest w := by
  induction calls generalizing s with
  | nil => exact h
  | cons c calls ih => exact ih (h.call c)

/-- In every run, whatever the drive answers : an SRB that is a READ or WRITE of `r` is completed
with success only after its `r.count` blocks moved, each when a status with BSY=0, ERR=0 and
DRQ=1 had been read for it, and in a WRITE a status with BSY=0 and ERR=0 was read after the last
block of each command. -/
theorem xtide_success_committed (hlog : s.log = []) (calls : List XtCall)
    {pre mid post : List XtEvent} {p : UInt32} {srb : Srb} {r : XtRequest}
    (hrun : (xtRun D B s calls).log =
      pre ++ .startIo p srb :: (mid ++ .srbStatus p .success :: post))
    (hmid : ∀ e ∈ mid, (∀ q srb', e ≠ .startIo q srb') ∧ ∀ q st, e ≠ .srbStatus q st)
    (hr : srb.request? = some r) (geom : Bool → Ata.Geometry) (tf : Ata.TaskFile) :
    Completed ((Device.idle tf).run s.activeTransport.wiring geom (accesses mid)) r.isWrite
      r.count := by
  have hstart : s.Honest s.activeTransport.wiring := by
    refine ⟨rfl, hlog ▸ trivial, fun q hq => ?_⟩
    rw [hlog] at hq
    exact absurd hq (by simp)
  have htrue := (hstart.run (D := D) (B := B) calls).log
  rw [hrun] at htrue
  exact (htrue.delivered hmid r hr).completed geom tf

end Drive

/-- WRITE(10) of the first sector. -/
def writeFirst : Srb where
  function := .executeScsi
  targetId := 0
  lun := 0
  cdb := fun i => [0x2A, 0, 0, 0, 0, 0, 0, 0, 1, 0].getD i 0
  dataBuffer := 0x1000
  dataTransferLength := 512

/-- The driver at `xsi_nobound` with `writeFirst`. -/
def writeFirstAsked : Xt Unit :=
  ((Xt.probed () (fun _ => smallCard) false).say (.startIo 1 writeFirst)).asked false ⟨true, 0, 1⟩
    0x1000

theorem writeFirst_runs : (xtideXferRun readyDrive plainBuild writeFirstAsked).1 = true := by
  decide +kernel

theorem writeFirst_log : ∃ mid, (∀ e ∈ mid, e.quiet = true) ∧
    (xtRun readyDrive plainBuild (Xt.probed () (fun _ => smallCard) false)
      [.startIo 1 writeFirst]).log =
      .startIo 1 writeFirst :: (mid ++ finishEvents 1 .success) := by
  have hasks : writeFirst.Asks (Xt.probed () (fun _ => smallCard) false) false ⟨true, 0, 1⟩ :=
    ⟨rfl, rfl, rfl, nofun, by decide⟩
  obtain ⟨as, hsent, -⟩ := xtideXferRun_ends readyDrive plainBuild writeFirstAsked
  refine ⟨as.map .access, quiet_access as, ?_⟩
  have hstart : xtRun readyDrive plainBuild (Xt.probed () (fun _ => smallCard) false)
      [.startIo 1 writeFirst] = xtTransferRun readyDrive plainBuild 1 writeFirstAsked := by
    rw [xtRun_cons, xtRun_nil, xtCall, xtStartIo_eq readyDrive plainBuild 1 hasks, xtTransfer]
    rw [if_neg (by decide), if_neg (by decide), if_neg (by decide)]
    rfl
  have hruns := writeFirst_runs
  rw [hstart]
  unfold xtTransferRun
  generalize xtideXferRun readyDrive plainBuild writeFirstAsked = q at hruns hsent ⊢
  obtain ⟨ok, t⟩ := q
  obtain rfl : ok = true := hruns
  have hfinish : (xtFinish 1 .success t).log = t.log ++ finishEvents 1 .success := by
    rw [xtFinish_eq]
  exact hfinish.trans (congrArg (· ++ finishEvents 1 .success) hsent.log)

theorem xtide_success_committed_writeFirst : ∃ mid post,
    (xtRun readyDrive plainBuild (Xt.probed () (fun _ => smallCard) false)
      [.startIo 1 writeFirst]).log =
        .startIo 1 writeFirst :: (mid ++ .srbStatus 1 .success :: post) ∧
      Completed ((Device.idle ⟨0, 0, 0, 0, 0⟩).run .bytes (fun _ => smallCard.ata) (accesses mid))
        true 1 := by
  obtain ⟨mid, hquiet, hlog⟩ := writeFirst_log
  refine ⟨mid, _, hlog, ?_⟩
  have hrun : (xtRun readyDrive plainBuild (Xt.probed () (fun _ => smallCard) false)
      [.startIo 1 writeFirst]).log = [] ++ .startIo 1 writeFirst :: (mid ++ .srbStatus 1 .success ::
        [.requestComplete 1, .nextRequest]) := hlog
  exact xtide_success_committed rfl [.startIo 1 writeFirst] hrun (not_bracket_of_quiet hquiet)
    (r := ⟨true, 0, 1⟩) rfl (fun _ => smallCard.ata) ⟨0, 0, 0, 0, 0⟩

end Inboard
