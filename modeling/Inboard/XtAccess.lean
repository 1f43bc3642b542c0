import Inboard.XtMiniport

/-!
# Waits and blocks

What the inner routines of the transport do, in accesses. A wait is a list of looks that
ends with the status it waits for (`xtideWaitNotBusy_spec`, `xtideWaitDrq_spec`) ; a block
is carried whole between the drive and memory (`xtideReadData_spec`,
`xtideWriteData_spec`), and a command's blocks one after the other (`xtReadLoop_spec`,
`xtWriteLoop_spec`).
-/

set_option linter.unusedSectionVars false

namespace Inboard

open Ata (Carries Device looks)

variable {δ : Type*}

/-! ## Looks -/

/-- `s` after accesses : the drive, the log, the memory and the error fields. -/
def Xt.moved (s : Xt δ) (d : δ) (as : List Ata.Access) (m : UInt32 → UInt8) (l : UInt8) (f : ℕ) :
    Xt δ :=
  { s with
    drive := d
    log := s.log ++ as.map .access
    mem := m
    lastStatus := l
    failCode := f }

@[simp] theorem Xt.moved_moved (s : Xt δ) (d d' : δ) (as as' : List Ata.Access)
    (m m' : UInt32 → UInt8) (l l' : UInt8) (f f' : ℕ) :
    (s.moved d as m l f).moved d' as' m' l' f' = s.moved d' (as ++ as') m' l' f' := by
  simp [moved]

/-- `s` after looks. -/
def Xt.looked (s : Xt δ) (d : δ) (vs : List UInt8) : Xt δ :=
  s.moved d (looks vs) s.mem s.lastStatus s.failCode

theorem Xt.looked_nil (s : Xt δ) : s = s.looked s.drive [] := by
  simp [looked, moved, looks]

theorem Xt.looked_looked (s : Xt δ) (d d' : δ) (vs vs' : List UInt8) :
    (s.looked d vs).looked d' vs' = s.looked d' (vs ++ vs') := by
  simp [looked, moved, looks]

section Poll

variable (D : XtDrive δ) (B : XtBuild)

theorem Xt.inb_altStatus (s : Xt δ) :
    (s.inb D .altStatus).2 = s.looked (D.inb .altStatus s.drive).2 [(s.inb D .altStatus).1] :=
  rfl

/-- A poll looks, and what ended it was the last look. -/
theorem xtPoll_spec (look : UInt8 → XtLook) : ∀ (n : ℕ) (al : UInt8) (s : Xt δ),
    ∃ d vs, (xtPoll D look n al s).2 = s.looked d vs ∧ (n ≠ 0 → vs ≠ []) ∧
      ((xtPoll D look n al s).1.1 ≠ .again →
        look (xtPoll D look n al s).1.2 = (xtPoll D look n al s).1.1 ∧
          ∃ vs', vs = vs' ++ [(xtPoll D look n al s).1.2])
  | 0, _, s => ⟨s.drive, [], s.looked_nil, fun h => absurd rfl h, fun h => absurd rfl h⟩
  | n + 1, al, s => by
    unfold xtPoll
    split
    · obtain ⟨d, vs, hlook, -, hend⟩ := xtPoll_spec look n (s.inb D .altStatus).1
        (s.inb D .altStatus).2
      refine ⟨d, _ :: vs, hlook.trans (s.looked_looked _ _ [_] vs), nofun, fun h => ?_⟩
      obtain ⟨hsame, vs', hvs⟩ := hend h
      exact ⟨hsame, _ :: vs', congrArg _ hvs⟩
    · exact ⟨_, _, s.inb_altStatus D, nofun, fun _ => ⟨rfl, [], rfl⟩⟩

theorem xtWait_spec (look : UInt8 → XtLook) (s : Xt δ) :
    ∃ d vs, (xtWait D B look s).2 = s.looked d vs ∧ vs ≠ [] ∧
      ((xtWait D B look s).1.1 ≠ .again →
        look (xtWait D B look s).1.2 = (xtWait D B look s).1.1 ∧
          ∃ vs', vs = vs' ++ [(xtWait D B look s).1.2]) := by
  unfold xtWait
  split_ifs
  · obtain ⟨d, vs, hfast, hvs, hend⟩ := xtPoll_spec D look XT_POLL_FAST 0 s
    split
    · next al s' heq =>
      rw [heq] at hfast
      obtain ⟨d', vs', hslow, -, hend'⟩ := xtPoll_spec D look XT_SPIN_SLOW al s'
      subst hfast
      refine ⟨d', vs ++ vs', hslow.trans (s.looked_looked ..),
        List.append_ne_nil_of_left_ne_nil (hvs (by decide)) vs', fun h => ?_⟩
      obtain ⟨hsame, vs'', rfl⟩ := hend' h
      exact ⟨hsame, vs ++ vs'', (List.append_assoc ..).symm⟩
    · exact ⟨d, vs, hfast, hvs (by decide), hend⟩
  · obtain ⟨d, vs, hlook, hvs, hend⟩ := xtPoll_spec D look XT_SPIN 0 s
    exact ⟨d, vs, hlook, hvs (by decide), hend⟩

theorem busy_of_ready {v : UInt8} (h : lookNotBusy v = .ready) : Ata.busy v = false := by
  by_contra hbusy
  simp [lookNotBusy, hbusy] at h

/-- `XTIDE_WaitNotBusy` answers the status it saw last, not busy. -/
theorem xtideWaitNotBusy_spec (s : Xt δ) :
    ∃ d vs, (xtideWaitNotBusy D B s).2 = s.looked d vs ∧ vs ≠ [] ∧
      ∀ al, (xtideWaitNotBusy D B s).1 = some al →
        Ata.busy al = false ∧ ∃ vs', vs = vs' ++ [al] := by
  obtain ⟨d, vs, hlook, hvs, hend⟩ := xtWait_spec D B lookNotBusy s
  unfold xtideWaitNotBusy
  split
  · next al s' heq =>
    rw [heq] at hlook hend
    obtain ⟨hready, hlast⟩ := hend XtLook.noConfusion
    refine ⟨d, vs, hlook, hvs, fun al' hal => ?_⟩
    obtain rfl := Option.some.inj hal
    exact ⟨busy_of_ready hready, hlast⟩
  · next r s' hne heq =>
    rw [heq] at hlook
    exact ⟨d, vs, hlook, hvs, fun al hal => absurd hal (Option.some_ne_none al).symm⟩

/-- `XTIDE_WaitDrq` clears the carry on a status with BSY=0, ERR=0 and DRQ=1. -/
theorem xtideWaitDrq_spec (s : Xt δ) :
    ∃ d vs l, (xtideWaitDrq D B s).2 = s.moved d (looks vs) s.mem l s.failCode ∧
      ((xtideWaitDrq D B s).1 = true → ∃ vs' v, vs = vs' ++ [v] ∧ Ata.askingStatus v = true) := by
  obtain ⟨d, vs, hlook, -, hend⟩ := xtWait_spec D B lookDrq s
  unfold xtideWaitDrq
  split
  · next al s' heq =>
    rw [heq] at hlook hend
    obtain ⟨hready, vs', hvs⟩ := hend XtLook.noConfusion
    refine ⟨d, vs, s.lastStatus, hlook, fun _ => ⟨vs', al, hvs, ?_⟩⟩
    unfold lookDrq at hready
    unfold Ata.askingStatus
    split_ifs at hready with hbusy herr hdrq
    simp [hbusy, herr, hdrq]
  · next r al s' hne heq =>
    rw [heq] at hlook
    refine ⟨d, vs, al, ?_, fun h => absurd h Bool.false_ne_true⟩
    rw [show s' = s.looked d vs from hlook]
    rfl

end Poll

/-! ## Memory -/

/-- The `n` bytes at `a`. -/
def xtLoad (mem : UInt32 → UInt8) : UInt32 → ℕ → List UInt8
  | _, 0 => []
  | a, n + 1 => mem a :: xtLoad mem (a + 1) n

/-- The `n` blocks at `a`. -/
def xtBlocks (mem : UInt32 → UInt8) : UInt32 → ℕ → List (List UInt8)
  | _, 0 => []
  | a, n + 1 => xtLoad mem a 512 :: xtBlocks mem (a + 512) n

theorem xtStore_append (mem : UInt32 → UInt8) : ∀ (a : UInt32) (bs cs : List UInt8),
    xtStore mem a (bs ++ cs) = xtStore (xtStore mem a bs) (a + UInt32.ofNat bs.length) cs
  | a, [], cs => by simp [xtStore]
  | a, b :: bs, cs => by
    rw [List.cons_append, xtStore, xtStore, xtStore_append, List.length_cons, UInt32.ofNat_add,
      UInt32.add_assoc, UInt32.add_comm 1]
    rfl

@[simp] theorem length_xtLoad (mem : UInt32 → UInt8) : ∀ (a : UInt32) (n : ℕ),
    (xtLoad mem a n).length = n
  | _, 0 => rfl
  | a, n + 1 => congrArg (· + 1) (length_xtLoad mem (a + 1) n)

@[simp] theorem length_xtBlocks (mem : UInt32 → UInt8) : ∀ (a : UInt32) (n : ℕ),
    (xtBlocks mem a n).length = n
  | _, 0 => rfl
  | a, n + 1 => congrArg (· + 1) (length_xtBlocks mem (a + 512) n)

/-- `a + (i + 1)` from the next address. -/
theorem add_ofNat_succ (a : UInt32) (i : ℕ) :
    a + UInt32.ofNat (i + 1) = a + 1 + UInt32.ofNat i := by
  rw [Nat.add_comm, UInt32.ofNat_add, UInt32.add_assoc]
  rfl

theorem add_ofNat_ne {a : UInt32} {i : ℕ} (h0 : i ≠ 0) (hi : i < 2 ^ 32) :
    a + UInt32.ofNat i ≠ a := by
  intro h
  have hzero : UInt32.ofNat i = 0 := UInt32.add_eq_left.1 h
  have hnat := congrArg UInt32.toNat hzero
  rw [UInt32.toNat_ofNat_of_lt' hi] at hnat
  exact h0 hnat

/-- A store leaves what is past it. -/
theorem xtStore_past : ∀ (bs : List UInt8) (mem : UInt32 → UInt8) (a : UInt32) {i : ℕ},
    bs.length ≤ i → i < 2 ^ 32 →
      xtStore mem a bs (a + UInt32.ofNat i) = mem (a + UInt32.ofNat i)
  | [], _, _, _, _, _ => rfl
  | b :: bs, mem, a, 0, h, _ => absurd h (by simp)
  | b :: bs, mem, a, i + 1, h, hi => by
    have hne : a + UInt32.ofNat (i + 1) ≠ a := add_ofNat_ne (Nat.succ_ne_zero i) hi
    rw [xtStore, add_ofNat_succ,
      xtStore_past bs _ (a + 1) (Nat.le_of_succ_le_succ h) (Nat.lt_of_succ_lt hi),
      ← add_ofNat_succ, Function.update_of_ne hne]

theorem xtLoad_congr {mem mem' : UInt32 → UInt8} : ∀ {n : ℕ} {a : UInt32},
    (∀ i < n, mem (a + UInt32.ofNat i) = mem' (a + UInt32.ofNat i)) →
      xtLoad mem a n = xtLoad mem' a n
  | 0, _, _ => rfl
  | n + 1, a, h => by
    have hfirst := h 0 (Nat.succ_pos n)
    rw [show a + UInt32.ofNat 0 = a from UInt32.add_zero a] at hfirst
    rw [xtLoad, xtLoad, hfirst, xtLoad_congr fun i hi => ?_]
    rw [← add_ofNat_succ]
    exact h (i + 1) (Nat.succ_lt_succ hi)

/-- What was stored is loaded. -/
theorem xtLoad_store : ∀ (bs : List UInt8) (mem : UInt32 → UInt8) (a : UInt32),
    bs.length ≤ 2 ^ 32 → xtLoad (xtStore mem a bs) a bs.length = bs
  | [], _, _, _ => rfl
  | b :: bs, mem, a, h => by
    rw [List.length_cons] at h
    have hback : a + 1 + UInt32.ofNat (2 ^ 32 - 1) = a := by
      rw [UInt32.add_assoc]
      exact UInt32.add_zero a
    have hfirst : xtStore mem a (b :: bs) a = b := by
      have hpast := xtStore_past bs (Function.update mem a b) (a + 1)
        (Nat.le_sub_one_of_lt h) (by omega)
      rw [hback, Function.update_self] at hpast
      exact hpast
    rw [List.length_cons, xtLoad, hfirst, xtStore, xtLoad_store bs _ _ (Nat.le_of_succ_le h)]

theorem xtLoad_add (mem : UInt32 → UInt8) (m : ℕ) : ∀ (n : ℕ) (a : UInt32),
    xtLoad mem a (n + m) = xtLoad mem a n ++ xtLoad mem (a + UInt32.ofNat n) m
  | 0, a => by
    rw [Nat.zero_add]
    exact congrArg (xtLoad mem · m) (UInt32.add_zero a).symm
  | n + 1, a => by
    rw [Nat.add_right_comm, xtLoad, xtLoad, xtLoad_add mem m n, add_ofNat_succ, List.cons_append]

theorem length_flatten_blocks : ∀ {blocks : List (List UInt8)},
    (∀ b ∈ blocks, b.length = 512) → blocks.flatten.length = 512 * blocks.length
  | [], _ => rfl
  | b :: blocks, h => by
    obtain ⟨hb, hrest⟩ := List.forall_mem_cons.1 h
    rw [List.flatten_cons, List.length_append, hb, length_flatten_blocks hrest, List.length_cons,
      Nat.mul_succ, Nat.add_comm]

/-- Blocks stand where their bytes do. -/
theorem eq_xtBlocks {mem : UInt32 → UInt8} : ∀ {blocks : List (List UInt8)} {a : UInt32},
    (∀ b ∈ blocks, b.length = 512) →
      xtLoad mem a blocks.flatten.length = blocks.flatten → blocks = xtBlocks mem a blocks.length
  | [], _, _, _ => rfl
  | b :: blocks, a, hlen, h => by
    obtain ⟨hb, hrest⟩ := List.forall_mem_cons.1 hlen
    rw [List.flatten_cons, List.length_append, hb, xtLoad_add] at h
    obtain ⟨hfirst, hothers⟩ := List.append_inj h (by rw [length_xtLoad, hb])
    rw [List.length_cons, xtBlocks, hfirst]
    exact congrArg (b :: ·) (eq_xtBlocks hrest hothers)

theorem xtBlocks_congr {mem mem' : UInt32 → UInt8} : ∀ {n : ℕ} {a : UInt32},
    (∀ i < 512 * n, mem (a + UInt32.ofNat i) = mem' (a + UInt32.ofNat i)) →
      xtBlocks mem a n = xtBlocks mem' a n
  | 0, _, _ => rfl
  | n + 1, a, h => by
    have hnext (i : ℕ) : a + 512 + UInt32.ofNat i = a + UInt32.ofNat (512 + i) := by
      rw [UInt32.ofNat_add, UInt32.add_assoc]
      rfl
    rw [xtBlocks, xtBlocks, xtLoad_congr fun i hi => h i (by omega), xtBlocks_congr fun i hi => ?_]
    rw [hnext]
    exact h (512 + i) (by omega)

theorem xtBlocks_add (mem : UInt32 → UInt8) (m : ℕ) : ∀ (n : ℕ) (a : UInt32),
    xtBlocks mem a (n + m) = xtBlocks mem a n ++ xtBlocks mem (a + UInt32.ofNat (n * 512)) m
  | 0, a => by
    rw [Nat.zero_add, Nat.zero_mul]
    exact congrArg (xtBlocks mem · m) (UInt32.add_zero a).symm
  | n + 1, a => by
    have hnext : a + UInt32.ofNat ((n + 1) * 512) = a + 512 + UInt32.ofNat (n * 512) := by
      rw [Nat.succ_mul, Nat.add_comm, UInt32.ofNat_add, UInt32.add_assoc]
      rfl
    rw [Nat.add_right_comm, xtBlocks, xtBlocks, xtBlocks_add mem m n, hnext, List.cons_append]

/-- An address from one past it, around the end of memory. -/
theorem add_ofNat_around (a : UInt32) {k : ℕ} (hk : k ≤ 2 ^ 32) (i : ℕ) :
    a + UInt32.ofNat i = a + UInt32.ofNat k + UInt32.ofNat (2 ^ 32 - k + i) := by
  have hsum : UInt32.ofNat k + UInt32.ofNat (2 ^ 32 - k + i) = UInt32.ofNat i := by
    rw [← UInt32.ofNat_add, ← Nat.add_assoc, Nat.add_sub_cancel' hk, UInt32.ofNat_add]
    exact UInt32.zero_add _
  rw [UInt32.add_assoc, hsum]

theorem xtBlocks_eq_map (mem : UInt32 → UInt8) : ∀ (n : ℕ) (a : UInt32),
    xtBlocks mem a n =
      (List.range n).map fun k => xtLoad mem (a + UInt32.ofNat (512 * k)) 512
  | 0, _ => rfl
  | n + 1, a => by
    have hnext (k : ℕ) : a + UInt32.ofNat (512 * (k + 1)) = a + 512 + UInt32.ofNat (512 * k) := by
      rw [Nat.mul_succ, Nat.add_comm, UInt32.ofNat_add, UInt32.add_assoc]
      rfl
    rw [xtBlocks, xtBlocks_eq_map mem n, List.range_succ_eq_map, List.map_cons, List.map_map]
    refine congrArg₂ List.cons (congrArg (xtLoad mem · 512) (UInt32.add_zero a).symm) ?_
    exact List.map_congr_left fun k _ => congrArg (xtLoad mem · 512) (hnext k).symm

/-! ## Blocks -/

theorem add_one_add_one (a : UInt32) : a + 1 + 1 = a + 2 := UInt32.add_assoc a 1 1

/-- How a transport carries data. -/
def XtTransport.wiring (tr : XtTransport) : Ata.Wiring := if tr = .latch then .latch else .bytes

/-- From `s` to `t` the drive has given `n` bytes, which stand at `edi`. -/
def Xt.Got (w : Ata.Wiring) (n : ℕ) (edi : UInt32) (s t : Xt δ) : Prop :=
  ∃ d as bs, bs.length = n ∧ Carries w false as bs ∧
    t = s.moved d as (xtStore s.mem edi bs) s.lastStatus s.failCode

/-- From `s` to `t` the drive was given the `n` bytes at `esi`. -/
def Xt.Put (w : Ata.Wiring) (n : ℕ) (esi : UInt32) (s t : Xt δ) : Prop :=
  ∃ d as, Carries w true as (xtLoad s.mem esi n) ∧
    t = s.moved d as s.mem s.lastStatus s.failCode

theorem Xt.Got.zero (w : Ata.Wiring) (edi : UInt32) (s : Xt δ) : s.Got w 0 edi s :=
  ⟨s.drive, [], [], rfl, .nil, by simp [moved, xtStore]⟩

theorem Xt.Put.zero (w : Ata.Wiring) (esi : UInt32) (s : Xt δ) : s.Put w 0 esi s :=
  ⟨s.drive, [], .nil, by simp [moved]⟩

section Data

variable (D : XtDrive δ) (B : XtBuild)

theorem xtGet_eq (r : Ata.Reg) (edi : UInt32) (s : Xt δ) :
    xtGet D r edi s = s.moved (D.inb r s.drive).2 [.inb r (s.inb D r).1]
      (Function.update s.mem edi (s.inb D r).1) s.lastStatus s.failCode :=
  rfl

theorem Xt.outb_eq (r : Ata.Reg) (v : UInt8) (s : Xt δ) :
    s.outb D r v = s.moved (D.outb r v s.drive) [.outb r v] s.mem s.lastStatus s.failCode :=
  rfl

theorem Xt.Got.getData {w : Ata.Wiring} {n : ℕ} {edi : UInt32} {s t : Xt δ}
    (h : (xtGet D .data edi s).Got w n (edi + 1) t) : s.Got w (n + 1) edi t := by
  obtain ⟨d, as, bs, hlen, has, rfl⟩ := h
  refine ⟨d, _, (s.inb D .data).1 :: bs, congrArg (· + 1) hlen, .inData _ has, ?_⟩
  rw [xtGet_eq, Xt.moved_moved]
  rfl

theorem Xt.Got.getLatch {n : ℕ} {edi : UInt32} {s t : Xt δ}
    (h : (xtGet D .hiLatch edi s).Got .latch n (edi + 1) t) : s.Got .latch (n + 1) edi t := by
  obtain ⟨d, as, bs, hlen, has, rfl⟩ := h
  refine ⟨d, _, (s.inb D .hiLatch).1 :: bs, congrArg (· + 1) hlen, .inLatch _ has, ?_⟩
  rw [xtGet_eq, Xt.moved_moved]
  rfl

theorem Xt.Put.putData {n : ℕ} {esi : UInt32} {s t : Xt δ}
    (h : (s.outb D .data (s.mem esi)).Put .bytes n (esi + 1) t) : s.Put .bytes (n + 1) esi t := by
  obtain ⟨d, as, has, rfl⟩ := h
  refine ⟨d, _, .outData _ has, ?_⟩
  rw [Xt.outb_eq, Xt.moved_moved]
  rfl

theorem Xt.Put.putLatch {n : ℕ} {esi : UInt32} {s t : Xt δ}
    (h : ((s.outb D .hiLatch (s.mem (esi + 1))).outb D .data (s.mem esi)).Put .latch n
        (esi + 2) t) :
    s.Put .latch (n + 2) esi t := by
  obtain ⟨d, as, has, rfl⟩ := h
  rw [← add_one_add_one] at has
  refine ⟨d, _, .outLatch _ _ has, ?_⟩
  rw [Xt.outb_eq, Xt.outb_eq, Xt.moved_moved, Xt.moved_moved]
  rfl

theorem xtInsb_got (w : Ata.Wiring) : ∀ (n : ℕ) (edi : UInt32) (s : Xt δ),
    s.Got w n edi (xtInsb D n edi s)
  | 0, edi, s => .zero w edi s
  | n + 1, edi, _ => .getData D (xtInsb_got w n (edi + 1) _)

theorem xtInsw_got (w : Ata.Wiring) : ∀ (n : ℕ) (edi : UInt32) (s : Xt δ),
    s.Got w (2 * n) edi (xtInsw D n edi s)
  | 0, edi, s => .zero w edi s
  | n + 1, edi, s => by
    refine .getData D (.getData D ?_)
    rw [add_one_add_one]
    exact xtInsw_got w n (edi + 2) _

theorem xtLatchIn_got : ∀ (n : ℕ) (edi : UInt32) (s : Xt δ),
    s.Got .latch (2 * n) edi (xtLatchIn D n edi s)
  | 0, edi, s => .zero .latch edi s
  | n + 1, edi, s => by
    refine .getData D (.getLatch D ?_)
    rw [add_one_add_one]
    exact xtLatchIn_got n (edi + 2) _

theorem xtOutsb_put : ∀ (n : ℕ) (esi : UInt32) (s : Xt δ),
    s.Put .bytes n esi (xtOutsb D n esi s)
  | 0, esi, s => .zero .bytes esi s
  | n + 1, esi, _ => .putData D (xtOutsb_put n (esi + 1) _)

theorem xtOutsw_put : ∀ (n : ℕ) (esi : UInt32) (s : Xt δ),
    s.Put .bytes (2 * n) esi (xtOutsw D n esi s)
  | 0, esi, s => .zero .bytes esi s
  | n + 1, esi, s => by
    refine .putData D (.putData D ?_)
    rw [add_one_add_one]
    exact xtOutsw_put n (esi + 2) _

theorem xtLatchOut_put : ∀ (n : ℕ) (esi : UInt32) (s : Xt δ),
    s.Put .latch (2 * n) esi (xtLatchOut D n esi s)
  | 0, esi, s => .zero .latch esi s
  | n + 1, esi, _ => .putLatch D (xtLatchOut_put n (esi + 2) _)

/-- `XTIDE_ReadData` takes a block to EDI, over any transport. -/
theorem xtideReadData_spec (edi : UInt32) (s : Xt δ) :
    s.Got s.tryTransport.wiring 512 edi (xtideReadData D B edi s) := by
  unfold xtideReadData XtTransport.wiring
  split_ifs
  · exact xtLatchIn_got D 256 edi s
  · exact xtInsw_got D .bytes 256 edi s
  · exact xtInsb_got D .bytes 512 edi s
  · exact xtInsb_got D .bytes 512 edi s

/-- `XTIDE_WriteData` gives the block at ESI, over any transport. -/
theorem xtideWriteData_spec (esi : UInt32) (s : Xt δ) :
    s.Put s.tryTransport.wiring 512 esi (xtideWriteData D B esi s) := by
  unfold xtideWriteData XtTransport.wiring
  split_ifs
  · exact xtLatchOut_put D 256 esi s
  · exact xtOutsw_put D 256 esi s
  · exact xtOutsb_put D 512 esi s
  · exact xtOutsb_put D 512 esi s

/-- `xrd_sector` moves blocks to EDI, one after the other. -/
theorem xtReadLoop_spec : ∀ (n : ℕ) (edi : UInt32) (s : Xt δ), ∃ d as l f blocks,
    (xtReadLoop D B n edi s).2 = s.moved d as (xtStore s.mem edi blocks.flatten) l f ∧
      Ata.Moves s.tryTransport.wiring false n (xtReadLoop D B n edi s).1 as blocks
  | 0, _, s => ⟨s.drive, [], s.lastStatus, s.failCode, [], by simp [xtReadLoop, Xt.moved, xtStore],
      .looks _ _ (fun _ => rfl) []⟩
  | n + 1, edi, s => by
    obtain ⟨d, vs, l, hwait, hasked⟩ := xtideWaitDrq_spec D B s
    unfold xtReadLoop
    split
    · next s' heq =>
      rw [heq] at hwait
      refine ⟨d, looks vs, l, 8, [], ?_, .looks _ _ (fun h => absurd h Bool.false_ne_true) vs⟩
      rw [show s' = s.moved d (looks vs) s.mem l s.failCode from hwait]
      rfl
    · next s' heq =>
      rw [heq] at hwait hasked
      obtain ⟨vs', v, rfl, hv⟩ := hasked rfl
      obtain rfl : s' = s.moved d (looks (vs' ++ [v])) s.mem l s.failCode := hwait
      obtain ⟨d', as, b, hlen, hcarry, hread⟩ := xtideReadData_spec D B edi
        (s.moved d (looks (vs' ++ [v])) s.mem l s.failCode)
      obtain ⟨d'', as', l', f, bs, hrest, hmoves⟩ := xtReadLoop_spec n (edi + 512)
        (xtideReadData D B edi (s.moved d (looks (vs' ++ [v])) s.mem l s.failCode))
      refine ⟨d'', looks (vs' ++ [v]) ++ as ++ as', l', f, b :: bs, hrest.trans ?_,
        .cons vs' hv hcarry hlen ?_⟩
      · rw [hread, Xt.moved_moved, Xt.moved_moved, List.flatten_cons, xtStore_append, hlen,
          List.append_assoc]
        rfl
      · rw [hread] at hmoves ⊢
        exact hmoves

/-- `xwr_sector` moves the blocks at ESI, one after the other. -/
theorem xtWriteLoop_spec : ∀ (n : ℕ) (esi : UInt32) (s : Xt δ), ∃ d as l f k,
    (xtWriteLoop D B n esi s).2 = s.moved d as s.mem l f ∧
      Ata.Moves s.tryTransport.wiring true n (xtWriteLoop D B n esi s).1 as (xtBlocks s.mem esi k)
  | 0, _, s => ⟨s.drive, [], s.lastStatus, s.failCode, 0, by simp [xtWriteLoop, Xt.moved],
      .looks _ _ (fun _ => rfl) []⟩
  | n + 1, esi, s => by
    obtain ⟨d, vs, l, hwait, hasked⟩ := xtideWaitDrq_spec D B s
    unfold xtWriteLoop
    split
    · next s' heq =>
      rw [heq] at hwait
      refine ⟨d, looks vs, l, 13, 0, ?_, .looks _ _ (fun h => absurd h Bool.false_ne_true) vs⟩
      rw [show s' = s.moved d (looks vs) s.mem l s.failCode from hwait]
      rfl
    · next s' heq =>
      rw [heq] at hwait hasked
      obtain ⟨vs', v, rfl, hv⟩ := hasked rfl
      obtain rfl : s' = s.moved d (looks (vs' ++ [v])) s.mem l s.failCode := hwait
      obtain ⟨d', as, hcarry, hwrite⟩ := xtideWriteData_spec D B esi
        (s.moved d (looks (vs' ++ [v])) s.mem l s.failCode)
      obtain ⟨d'', as', l', f, k, hrest, hmoves⟩ := xtWriteLoop_spec n (esi + 512)
        (xtideWriteData D B esi (s.moved d (looks (vs' ++ [v])) s.mem l s.failCode))
      refine ⟨d'', looks (vs' ++ [v]) ++ as ++ as', l', f, k + 1, hrest.trans ?_,
        .cons vs' hv hcarry (length_xtLoad ..) ?_⟩
      · rw [hwrite, Xt.moved_moved, Xt.moved_moved, List.append_assoc]
        rfl
      · rw [hwrite] at hmoves ⊢
        exact hmoves

end Data

end Inboard
