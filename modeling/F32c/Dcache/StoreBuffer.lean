import F32c.Clocked
import F32c.Dcache.Cache
import F32c.Ring

/-!
# The store buffer

The store buffer of `f32c_cache` by itself: its registers, the data bus behind it and the
processor in front of it, for any pattern of accesses, misses of the data cache, acknowledges
and resets.  The stores that the processor may go on after and the stores that are acknowledged
on the bus are two sequences; the buffer holds what is in the first and not yet in the second.
-/

namespace F32c
namespace Dcache

open Clocked

/-- Registers of the store buffer. -/
structure Sb where
  mem : Nat → Slot
  head : Nat
  tail : Nat
  queued : Nat
  empty : Bool
  full : Bool

/-- What the store buffer sees in a clock: the access of the processor, whether the data cache
has a miss and with which address, the acknowledge of the bus, and the reset. -/
structure SbInput where
  strobe : Bool
  write : Bool
  store : Slot
  cacheable : Bool
  miss : Bool
  rdAddr : Addr
  ready : Bool
  reset : Bool

namespace Sb

section Model

variable (slots : Nat)

/-- A store enters the buffer. -/
def push (s : Sb) (i : SbInput) : Bool :=
  !s.full && i.strobe && i.write && !i.miss && (!s.empty || !i.ready)

/-- The oldest store leaves the buffer. -/
def pop (s : Sb) (i : SbInput) : Bool := !s.empty && i.ready

/-- The step of `R_sb_head` and `R_sb_tail`. -/
def next (k : Nat) : Nat :=
  if slots > 1 then if k = slots then 0 else k + 1 else k

/-- `sb_queued_new` after the first branch. -/
def queuedNew (s : Sb) (i : SbInput) : Nat := s.queued + if s.push i then 1 else 0

/-- The process of the store buffer, without its reset. -/
def clock (s : Sb) (i : SbInput) : Sb where
  mem := if s.push i then Function.update s.mem s.head i.store else s.mem
  head := if s.push i then next slots s.head else s.head
  tail := if s.pop i then next slots s.tail else s.tail
  queued := if s.pop i then s.queuedNew i - 1 else s.queuedNew i
  empty := if s.pop i && s.queuedNew i - 1 == 0 then true else if s.push i then false else s.empty
  full :=
    if s.pop i then false else if s.push i && s.queued == slots - 1 then true else s.full

/-- One rising edge of the clock. -/
def step (s : Sb) (i : SbInput) : Sb :=
  if i.reset then
    { clock slots s i with empty := true, full := false, head := 0, tail := 0, queued := 0 }
  else clock slots s i

/-- `dmem_addr`, `dmem_byte_sel` and `dmem_data_out` -/
def bus (s : Sb) (i : SbInput) : Slot where
  addr :=
    if !s.empty then (s.mem s.tail).addr else if i.miss then i.rdAddr else i.store.addr
  byteSel := if s.empty then i.store.byteSel else (s.mem s.tail).byteSel
  data := if s.empty then i.store.data else (s.mem s.tail).data

/-- `dmem_addr_strobe` -/
def busStrobe (s : Sb) (i : SbInput) : Bool :=
  if !s.empty || i.miss then true else if i.cacheable && !i.write then false else i.strobe

/-- `dmem_write` -/
def busWrite (s : Sb) (i : SbInput) : Bool :=
  if !s.empty then true else if i.miss then false else i.write

/-- `cpu_d_ready` -/
def cpuReady (s : Sb) (i : SbInput) : Bool :=
  if i.cacheable && !i.write then true
  else if !s.full && i.write then true
  else if !s.empty then false
  else i.ready

/-- The processor is told that its store was accepted, and is not kept waiting by a miss. -/
def accepts (s : Sb) (i : SbInput) : Bool := i.strobe && i.write && s.cpuReady i && !i.miss

/-- A store is acknowledged on the bus. -/
def sends (s : Sb) (i : SbInput) : Bool := s.busStrobe i && s.busWrite i && i.ready

/-- The stores in the buffer, oldest first. -/
def queue (s : Sb) : List Slot := Ring.contents (slots + 1) s.mem s.tail s.queued

/-- The stores accepted in the first `n` clocks. -/
def accepted (s : Sb) (inp : Nat → SbInput) : Nat → List Slot
  | 0 => []
  | n + 1 => accepted s inp n ++
      if (stateAt (step slots) s inp n).accepts (inp n) then [(inp n).store] else []

/-- The stores acknowledged on the bus in the first `n` clocks. -/
def sent (s : Sb) (inp : Nat → SbInput) : Nat → List Slot
  | 0 => []
  | n + 1 => sent s inp n ++
      if (stateAt (step slots) s inp n).sends (inp n) then
        [(stateAt (step slots) s inp n).bus (inp n)]
      else []

/-- The registers at power-up; the memory may hold anything. -/
structure Init (s : Sb) : Prop where
  head : s.head = 0
  tail : s.tail = 0
  queued : s.queued = 0
  empty : s.empty = true
  full : s.full = false

/-- Head, tail and flags agree with the number of stores queued. -/
structure Inv (s : Sb) : Prop where
  head : s.head = if slots > 1 then (s.tail + s.queued) % (slots + 1) else s.tail
  tail : s.tail ≤ slots
  queued : s.queued ≤ slots
  empty : s.empty = (s.queued == 0)
  full : s.full = (s.queued == slots)

end Model

section Clock

variable {slots : Nat} {s : Sb} {i : SbInput}

theorem next_eq {k : Nat} (h1 : slots > 1) (hk : k ≤ slots) : next slots k = (k + 1) % (slots + 1) := by
  unfold next
  rw [if_pos h1]
  by_cases heq : k = slots
  · rw [if_pos heq, heq, Nat.mod_self]
  · rw [if_neg heq, Nat.mod_eq_of_lt (by omega)]

theorem next_le {k : Nat} (hk : k ≤ slots) : next slots k ≤ slots := by
  unfold next
  split_ifs <;> omega

/-- A store enters only where there is room. -/
theorem Inv.push_room (h : Inv slots s) (hpush : s.push i = true) : s.queued < slots := by
  have hqueued := h.queued
  simp [push, h.full] at hpush
  omega

/-- A store leaves only where there is one. -/
theorem Inv.pop_some (h : Inv slots s) (hpop : s.pop i = true) : 0 < s.queued := by
  simp [pop, h.empty] at hpop
  omega

/-- With one slot the buffer is either full or empty. -/
theorem Inv.one_slot (h : Inv slots s) (h1 : slots ≤ 1) (hpush : s.push i = true) :
    s.pop i = false := by
  have := h.push_room hpush
  simp [pop, h.empty]
  omega

theorem inv_of_init (hslots : 1 ≤ slots) (h : s.Init) : Inv slots s := by
  rcases h with ⟨hhead, htail, hqueued, hempty, hfull⟩
  constructor
  · simp [hhead, htail, hqueued]
  · omega
  · omega
  · rw [hempty, hqueued]
    rfl
  · rw [hfull, hqueued]
    simp
    omega

theorem inv_clock_head (h : Inv slots s) :
    (clock slots s i).head =
      if slots > 1 then ((clock slots s i).tail + (clock slots s i).queued) % (slots + 1)
      else (clock slots s i).tail := by
  have hhead := h.head
  have htail := h.tail
  simp only [clock, queuedNew]
  by_cases h1 : slots > 1
  · rw [if_pos h1] at hhead ⊢
    have hlt : s.head ≤ slots := by
      rw [hhead]
      exact Nat.le_of_lt_succ (Nat.mod_lt _ (by omega))
    rw [next_eq h1 hlt, next_eq h1 htail]
    cases hpu : s.push i <;> cases hpo : s.pop i <;>
      simp only [Bool.false_eq_true, if_false, if_true, Nat.add_zero, hhead]
    · have := h.pop_some hpo
      rw [Nat.mod_add_mod]
      congr 1
      omega
    · rw [Nat.mod_add_mod, Nat.add_assoc]
    · have := h.pop_some hpo
      rw [Nat.mod_add_mod, Nat.mod_add_mod]
      congr 1
      omega
  · rw [if_neg h1] at hhead ⊢
    simp only [next, if_neg h1, ite_self, hhead]

/-- The flags after a clock agree with the number of stores queued after it. -/
theorem inv_clock_flags (hslots : 1 ≤ slots) (h : Inv slots s) :
    (clock slots s i).queued ≤ slots ∧
      (clock slots s i).empty = ((clock slots s i).queued == 0) ∧
      (clock slots s i).full = ((clock slots s i).queued == slots) := by
  have hqueued := h.queued
  simp only [clock, queuedNew, h.empty, h.full]
  cases hpu : s.push i with
  | false =>
      cases hpo : s.pop i with
      | false => simpa using hqueued
      | true =>
          have := h.pop_some hpo
          simp only [Bool.false_eq_true, if_false, if_true, Bool.true_and, Nat.add_zero]
          refine ⟨by omega, ?_, ?_⟩ <;> rw [Bool.eq_iff_iff] <;> simp <;> omega
  | true =>
      have hroom := h.push_room hpu
      cases hpo : s.pop i with
      | false =>
          simp only [Bool.false_eq_true, if_false, if_true, Bool.true_and, Bool.false_and]
          refine ⟨by omega, by simp, ?_⟩
          rw [Bool.eq_iff_iff]
          simp
          omega
      | true =>
          -- an entry comes for the one that goes, so that there was one and is not yet another
          have hsome := h.pop_some hpo
          simp only [if_true, Bool.true_and]
          refine ⟨by omega, ?_, ?_⟩
          · rw [Bool.eq_iff_iff]
            simp
          · rw [Bool.eq_iff_iff]
            simp
            omega

theorem inv_clock (hslots : 1 ≤ slots) (h : Inv slots s) : Inv slots (clock slots s i) := by
  rcases inv_clock_flags (i := i) hslots h with ⟨hqueued, hempty, hfull⟩
  refine ⟨inv_clock_head h, ?_, hqueued, hempty, hfull⟩
  simp only [clock]
  split_ifs
  · exact next_le h.tail
  · exact h.tail

theorem inv_step (hslots : 1 ≤ slots) (h : Inv slots s) : Inv slots (step slots s i) := by
  unfold step
  split_ifs with hreset
  · exact inv_of_init hslots ⟨rfl, rfl, rfl, rfl, rfl⟩
  · exact inv_clock hslots h

end Clock

section Queue

variable {slots : Nat} {s : Sb} {i : SbInput}

/-- The entries after a clock, read from the tail before it. -/
theorem contents_clock (h : Inv slots s) :
    Ring.contents (slots + 1) (clock slots s i).mem s.tail (s.queuedNew i) =
      s.queue slots ++ if s.push i then [i.store] else [] := by
  simp only [clock, queuedNew, queue]
  cases hpu : s.push i with
  | false => simp
  | true =>
      have hroom := h.push_room hpu
      have htail := h.tail
      have hwrite : s.head = (s.tail + s.queued) % (slots + 1) := by
        rw [h.head]
        split_ifs with h1
        · rfl
        · rw [Nat.mod_eq_of_lt (by omega)]
          omega
      rw [hwrite]
      exact Ring.contents_push s.mem s.tail (by omega) _

/-- A store that enters is queued last, one that leaves was the oldest. -/
theorem queue_clock (h : Inv slots s) :
    (clock slots s i).queue slots =
      (if s.pop i then (s.queue slots).tail else s.queue slots) ++
        if s.push i then [i.store] else [] := by
  have hcontents := contents_clock (i := i) h
  have htail := h.tail
  cases hpo : s.pop i with
  | false =>
      rw [if_neg (by decide), ← hcontents]
      simp [queue, clock, hpo]
  | true =>
      have hsome := h.pop_some hpo
      have hne : s.queue slots ≠ [] := by
        intro hnil
        have hlen := congrArg List.length hnil
        simp [queue] at hlen
        omega
      obtain ⟨m, hm⟩ : ∃ m, s.queuedNew i = m + 1 :=
        ⟨s.queuedNew i - 1, by rw [queuedNew]; omega⟩
      have hafter : (clock slots s i).queue slots =
          Ring.contents (slots + 1) (clock slots s i).mem ((s.tail + 1) % (slots + 1)) m := by
        have hq : (clock slots s i).queued = m := by
          simp only [clock, hpo, if_true, hm]
          omega
        have ht : (clock slots s i).tail = next slots s.tail := by
          simp [clock, hpo]
        rw [queue, hq, ht]
        by_cases h1 : slots > 1
        · rw [next_eq h1 htail]
        · -- one slot: nothing is left, so that the tail does not matter
          have hpu : s.push i = false := by
            cases hpu : s.push i with
            | false => rfl
            | true =>
                rw [h.one_slot (by omega) hpu] at hpo
                cases hpo
          have hqueued := h.queued
          rw [queuedNew, hpu] at hm
          simp only [Bool.false_eq_true, if_false] at hm
          have hzero : m = 0 := by omega
          rw [hzero]
          rfl
      rw [hm, Ring.contents_succ, ← hafter] at hcontents
      rw [if_pos rfl, ← List.tail_append_of_ne_nil hne, ← hcontents, List.tail_cons]

theorem queue_reset (h : i.reset = true) : (step slots s i).queue slots = [] := by
  rw [step, if_pos h]
  rfl

theorem queue_of_init (h : s.Init) : s.queue slots = [] := by
  rw [queue, h.queued]
  rfl

theorem queue_eq_nil (h : Inv slots s) (he : s.empty = true) : s.queue slots = [] := by
  have hzero : s.queued = 0 := by simpa [h.empty] using he
  rw [queue, hzero]
  rfl

/-- The oldest store is the one on the bus. -/
theorem queue_eq_cons (h : Inv slots s) (he : s.empty = false) :
    s.queue slots = s.mem s.tail :: (s.queue slots).tail := by
  have hne : s.queued ≠ 0 := by
    intro hz
    rw [h.empty, hz] at he
    cases he
  obtain ⟨m, hm⟩ := Nat.exists_eq_succ_of_ne_zero hne
  have htail := h.tail
  rw [queue, hm, Ring.contents_succ, List.tail_cons, Nat.mod_eq_of_lt (by omega)]

theorem Inv.not_full_of_empty (hslots : 1 ≤ slots) (h : Inv slots s) (he : s.empty = true) :
    s.full = false := by
  have hzero : s.queued = 0 := by simpa [h.empty] using he
  rw [h.full, hzero]
  simp
  omega

/-- What is accepted in a clock goes behind what is queued, and what is sent comes from before. -/
theorem conserve_clock (hslots : 1 ≤ slots) (h : Inv slots s) :
    s.queue slots ++ (if s.accepts i then [i.store] else []) =
      (if s.sends i then [s.bus i] else []) ++ (clock slots s i).queue slots := by
  rw [queue_clock h]
  cases he : s.empty with
  | true =>
      -- the store on the bus is the one of the processor, and enters unless it is acknowledged
      have hfull := h.not_full_of_empty hslots he
      have hpop : s.pop i = false := by simp [pop, he]
      rw [hpop, queue_eq_nil h he]
      cases hm : i.miss <;> cases hr : i.ready <;> cases hw : i.write <;> cases hs : i.strobe <;>
        simp [accepts, sends, push, bus, cpuReady, busStrobe, busWrite, he, hfull, hm, hr, hw, hs]
  | false =>
      have haccepts : s.accepts i = s.push i := by
        cases hm : i.miss <;> cases hf : s.full <;> cases hw : i.write <;> cases hs : i.strobe <;>
          simp [accepts, push, cpuReady, he, hf, hm, hw, hs]
      have hsends : s.sends i = i.ready := by simp [sends, busStrobe, busWrite, he]
      have hbus : s.bus i = s.mem s.tail := by simp [bus, he]
      have hpop : s.pop i = i.ready := by simp [pop, he]
      rw [haccepts, hsends, hbus, hpop]
      cases hr : i.ready with
      | false => simp
      | true =>
          rw [queue_eq_cons h he]
          rfl

end Queue

section Run

variable {slots : Nat} {s : Sb} {inp : Nat → SbInput}

theorem inv_run (hslots : 1 ≤ slots) (h : Inv slots s) (inp : Nat → SbInput) (n : Nat) :
    Inv slots (stateAt (step slots) s inp n) :=
  stateAt_invariant h (fun _ _ h => inv_step hslots h) inp n

/-- As long as there is no reset, what was accepted has been sent or is queued, in order. -/
theorem conserve_run (hslots : 1 ≤ slots) (h : Inv slots s) {n : Nat}
    (hreset : ∀ k < n, (inp k).reset = false) :
    s.queue slots ++ accepted slots s inp n =
      sent slots s inp n ++ (stateAt (step slots) s inp n).queue slots := by
  induction n with
  | zero => simp [accepted, sent]
  | succ n ih =>
      have hclock := conserve_clock (i := inp n) hslots (inv_run hslots h inp n)
      have hstep : stateAt (step slots) s inp (n + 1) =
          clock slots (stateAt (step slots) s inp n) (inp n) := by
        rw [stateAt_succ, step, if_neg (by simp [hreset n (by omega)])]
      rw [accepted, sent, ← List.append_assoc, ih (fun k hk => hreset k (by omega)),
        List.append_assoc, hclock, hstep, List.append_assoc]

theorem sent_length_mono (slots : Nat) (s : Sb) (inp : Nat → SbInput) {m n : Nat} (h : m ≤ n) :
    (sent slots s inp m).length ≤ (sent slots s inp n).length := by
  induction h with
  | refl => exact le_refl _
  | step _ ih =>
      rw [sent, List.length_append]
      omega

/-- With acknowledges time and again, everything that was accepted is sent. -/
theorem all_sent (hslots : 1 ≤ slots) (h : Inv slots s) (hreset : ∀ k, (inp k).reset = false)
    (hready : ∀ k, ∃ j, k ≤ j ∧ (inp j).ready = true) (n : Nat) :
    ∃ m, n ≤ m ∧ s.queue slots ++ accepted slots s inp n <+: sent slots s inp m := by
  have haccepted : ∀ k, n ≤ k → (s.queue slots ++ accepted slots s inp n).length ≤
      (s.queue slots ++ accepted slots s inp k).length := by
    intro k hk
    induction hk with
    | refl => exact le_refl _
    | step _ ih =>
        simp only [accepted, List.length_append] at ih ⊢
        omega
  have hgrow : ∀ k, n ≤ k →
      (sent slots s inp k).length < (s.queue slots ++ accepted slots s inp n).length →
      ∃ m, k ≤ m ∧ (sent slots s inp k).length < (sent slots s inp m).length := by
    intro k hk hshort
    rcases hready k with ⟨j, hj, hr⟩
    have hmono := sent_length_mono slots s inp hj
    rcases Nat.lt_or_eq_of_le hmono with hlt | heq
    · exact ⟨j, hj, hlt⟩
    · -- nothing was sent until the acknowledge, which finds something to send
      have hqueue := congrArg List.length
        (conserve_run hslots h (n := j) (fun k _ => hreset k))
      have := haccepted j (by omega)
      simp only [List.length_append] at hqueue this hshort
      have hempty : (stateAt (step slots) s inp j).empty = false := by
        cases he : (stateAt (step slots) s inp j).empty with
        | false => rfl
        | true =>
            rw [queue_eq_nil (inv_run hslots h inp j) he, List.length_nil] at hqueue
            omega
      have hsends : (stateAt (step slots) s inp j).sends (inp j) = true := by
        simp [sends, busStrobe, busWrite, hempty, hr]
      refine ⟨j + 1, by omega, ?_⟩
      rw [sent, if_pos hsends, List.length_append, List.length_singleton]
      omega
  rcases exists_le_of_grows (fun k => (sent slots s inp k).length) hgrow with ⟨m, hm, hlen⟩
  refine ⟨m, hm, ?_⟩
  have hall := conserve_run hslots h (n := m) (fun k _ => hreset k)
  have hprefix : s.queue slots ++ accepted slots s inp n <+:
      s.queue slots ++ accepted slots s inp m := by
    apply List.prefix_append_right_inj _ |>.2
    clear hlen hall
    induction hm with
    | refl => exact List.prefix_refl _
    | step _ ih => exact ih.trans (List.prefix_append _ _)
  exact List.prefix_of_prefix_length_le hprefix (hall ▸ List.prefix_append _ _) hlen

theorem Inv.head_sub_tail (h : Inv slots s) (h1 : 1 < slots) :
    (s.queued : Int) = ((s.head : Int) - s.tail) % (slots + 1) := by
  have hqueued := h.queued
  have hhead := h.head
  rw [if_pos h1] at hhead
  rw [hhead]
  push_cast
  rw [Int.emod_sub_emod, add_sub_cancel_left, Int.emod_eq_of_lt (by omega) (by omega)]

/-- The store buffer is a queue: its registers agree with the number of stores in it, it is never
asked to hold more or to give what it does not have, and between resets the stores on the bus are
the accepted ones, each once and in order. -/
theorem sb_fifo (hslots : 1 ≤ slots ∧ slots ≤ 31) (hinit : s.Init) (inp : Nat → SbInput) (n : Nat) :
    let t := stateAt (step slots) s inp n
    let later := fun k => inp (n + k)
    (1 < slots → (t.queued : Int) = ((t.head : Int) - t.tail) % (slots + 1)) ∧
    (t.empty = true ↔ t.queued = 0) ∧ (t.full = true ↔ t.queued = slots) ∧
    t.queued ≤ slots ∧ (t.push (inp n) = true → t.queued < slots) ∧
    (t.pop (inp n) = true → 0 < t.queued) ∧
    s.queue slots = [] ∧
    ((inp n).reset = true → (stateAt (step slots) s inp (n + 1)).queue slots = []) ∧
    (∀ m, (∀ k < m, (later k).reset = false) →
      t.queue slots ++ accepted slots t later m =
        sent slots t later m ++ (stateAt (step slots) s inp (n + m)).queue slots) ∧
    ((∀ k, (later k).reset = false) → (∀ k, ∃ j, k ≤ j ∧ (later j).ready = true) →
      ∀ m, ∃ m', m ≤ m' ∧
        t.queue slots ++ accepted slots t later m <+: sent slots t later m') := by
  intro t later
  have hinv : Inv slots t := inv_run hslots.1 (inv_of_init hslots.1 hinit) inp n
  refine ⟨hinv.head_sub_tail, by simp [hinv.empty], by simp [hinv.full], hinv.queued,
    hinv.push_room, hinv.pop_some, queue_of_init hinit, ?_, ?_, ?_⟩
  · intro hreset
    exact queue_reset hreset
  · intro m hreset
    rw [stateAt_add]
    exact conserve_run hslots.1 hinv hreset
  · intro hreset hready m
    exact all_sent hslots.1 hinv hreset hready m

/-- The registers at power-up, over an empty memory. -/
def powerUp : Sb where
  mem := fun _ => ⟨0, 0, 0⟩
  head := 0
  tail := 0
  queued := 0
  empty := true
  full := false

/-- A clock in which the processor does nothing. -/
def idle : SbInput where
  strobe := false
  write := false
  store := ⟨0, 0, 0⟩
  cacheable := false
  miss := false
  rdAddr := 0
  ready := true
  reset := false

/-- A clock with a store that the bus does not acknowledge. -/
def storing : SbInput := { idle with strobe := true, write := true, ready := false }

/-- A store waits for the bus in a buffer of two slots. -/
theorem sb_fifo_twoSlots :
    let inp := fun n => if n = 0 then storing else idle
    let t := stateAt (step 2) powerUp inp 1
    let later := fun k => inp (1 + k)
    (1 < 2 → (t.queued : Int) = ((t.head : Int) - t.tail) % ((2 : Nat) + 1)) ∧
    (t.empty = true ↔ t.queued = 0) ∧ (t.full = true ↔ t.queued = 2) ∧
    t.queued ≤ 2 ∧ (t.push (inp 1) = true → t.queued < 2) ∧
    (t.pop (inp 1) = true → 0 < t.queued) ∧
    powerUp.queue 2 = [] ∧
    ((inp 1).reset = true → (stateAt (step 2) powerUp inp (1 + 1)).queue 2 = []) ∧
    (∀ m, (∀ k < m, (later k).reset = false) →
      t.queue 2 ++ accepted 2 t later m =
        sent 2 t later m ++ (stateAt (step 2) powerUp inp (1 + m)).queue 2) ∧
    ((∀ k, (later k).reset = false) → (∀ k, ∃ j, k ≤ j ∧ (later j).ready = true) →
      ∀ m, ∃ m', m ≤ m' ∧ t.queue 2 ++ accepted 2 t later m <+: sent 2 t later m') :=
  sb_fifo (by decide) ⟨rfl, rfl, rfl, rfl, rfl⟩ _ 1

/-- Where nothing is queued and nothing is stored, nothing is sent. -/
theorem sent_of_quiet
    {n : Nat} (hquiet : ∀ k, n ≤ k → (inp k).strobe = false ∧ (inp k).miss = false)
    (hempty : (stateAt (step slots) s inp n).empty = true) (hsent : sent slots s inp n = []) :
    ∀ m, n ≤ m → (stateAt (step slots) s inp m).empty = true ∧ sent slots s inp m = [] := by
  intro m hm
  induction hm with
  | refl => exact ⟨hempty, hsent⟩
  | step hm ih =>
      rcases hquiet _ hm with ⟨hstrobe, hmiss⟩
      rcases ih with ⟨he, hs⟩
      constructor
      · rw [stateAt_succ, step]
        split_ifs
        · rfl
        · simp [clock, push, pop, hstrobe, he]
      · rw [sent, hs, if_neg (by simp [sends, busStrobe, he, hstrobe, hmiss])]
        rfl

/-- The store of the first clock is in the buffer when the second clock resets it. -/
def resetRun : Nat → SbInput
  | 0 => storing
  | 1 => { idle with ready := false, reset := true }
  | _ + 2 => idle

/-- A store comes while the data cache has a miss, and is gone when the miss is over. -/
def missRun : Nat → SbInput
  | 0 => { storing with miss := true }
  | _ + 1 => idle

/-- The processor is told that a store was accepted which never is on the bus. -/
theorem accepted_lost :
    (powerUp.accepts (resetRun 0) = true ∧ ∀ n, sent 1 powerUp resetRun n = []) ∧
    ((missRun 0).strobe = true ∧ (missRun 0).write = true ∧
      powerUp.cpuReady (missRun 0) = true ∧ ∀ n, sent 1 powerUp missRun n = []) := by
  refine ⟨⟨by decide, ?_⟩, by decide, by decide, by decide, ?_⟩
  · intro n
    rcases Nat.lt_or_ge n 2 with hn | hn
    · interval_cases n <;> decide
    · refine (sent_of_quiet ?_ (by decide) (by decide) n hn).2
      intro k hk
      obtain ⟨k, rfl⟩ := Nat.exists_eq_add_of_le' hk
      exact ⟨rfl, rfl⟩
  · intro n
    rcases Nat.eq_zero_or_pos n with rfl | hn
    · rfl
    · refine (sent_of_quiet ?_ (by decide) (by decide) n hn).2
      intro k hk
      obtain ⟨k, rfl⟩ := Nat.exists_eq_add_of_le' hk
      exact ⟨rfl, rfl⟩

end Run

end Sb

end Dcache
end F32c
