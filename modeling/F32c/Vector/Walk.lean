import F32c.Vector.Unit

/-!
# Walking the list of segments

A list of segments lies in the memory as a chain of headers.  The DMA unit walks it in the
same way for a load and for a store: the state of the walk says which word of which header
or segment is next, and how many elements were moved.
-/

namespace F32c
namespace Vector

variable {V : Nat}

section Segments

/-- A segment of a vector in the memory. -/
structure Segment where
  hdr : Addr
  data : Addr
  len : Nat

/-- Where the elements of a segment are. -/
def Segment.addrs (s : Segment) : List Addr :=
  (List.range s.len).map fun j => s.data + BitVec.ofNat 28 j

/-- Where the elements of a list of segments are, in the order of the list. -/
def elements (segs : List Segment) : List Addr := segs.flatMap Segment.addrs

/-- Where the words of the headers are. -/
def headers (segs : List Segment) : List Addr :=
  segs.flatMap fun s => [s.hdr, s.hdr + 1#28, s.hdr + 2#28]

/-- The header of a segment; the field for the length holds one less. -/
structure HeaderAt (V : Nat) (mem : Mem) (s : Segment) : Prop where
  len : ((mem s.hdr).setWidth 16).toNat + 1 = s.len
  fits : s.len ≤ 2 ^ V
  data : wordAddr (mem (s.hdr + 1#28)) = s.data

/-- The last header has a null pointer, and each other one the address of the next header. -/
def ListAt (V : Nat) (mem : Mem) : List Segment → Prop
  | [] => False
  | s :: rest =>
    HeaderAt V mem s ∧
      match rest with
      | [] => mem (s.hdr + 2#28) = 0
      | s' :: _ =>
        mem (s.hdr + 2#28) ≠ 0 ∧ wordAddr (mem (s.hdr + 2#28)) = s'.hdr ∧ ListAt V mem rest

@[simp] theorem length_addrs (s : Segment) : s.addrs.length = s.len := by
  simp [Segment.addrs]

theorem elements_cons (s : Segment) (rest : List Segment) :
    elements (s :: rest) = s.addrs ++ elements rest := by
  rfl

theorem HeaderAt.pos {mem : Mem} {s : Segment} (h : HeaderAt V mem s) : 0 < s.len := by
  have := h.len
  omega

/-- The element that comes next within a segment. -/
theorem drop_addrs {s : Segment} {j : Nat} (hj : j < s.len) :
    s.addrs.drop j = (s.data + BitVec.ofNat 28 j) :: s.addrs.drop (j + 1) := by
  rw [List.drop_eq_getElem_cons (by simpa using hj)]
  simp [Segment.addrs]

end Segments

section Walk

/-- The unit is at work. -/
structure Active (store : Bool) (d : Dma V) : Prop where
  storeMode : d.storeMode = store
  addrStrobe : d.addrStrobe = true
  done : d.done = false
  next : d.next = false

/-- The unit has just moved the last element. -/
structure Ending (store : Bool) (d : Dma V) : Prop where
  state : d.state = .idle
  storeMode : store = true → d.storeMode = false
  addrStrobe : d.addrStrobe = false
  dataWrite : d.dataWrite = false
  done : d.done = true
  next : d.next = true

/--
The state of the walk after `h` words of headers and `k` elements, of the list
`segs`: the word `i` of a header is next, or the element `j` of a segment.
-/
inductive Walk (mem : Mem) (segs : List Segment) (store : Bool) (d : Dma V) (h k : Nat) : Prop
  | header (i : Nat) (s : Segment) (rest : List Segment) (hi : i ≤ 2)
      (hh : i ≤ h ∧ h ≤ 3 * k + i) (hsuf : s :: rest <:+ segs) (hlist : ListAt V mem (s :: rest))
      (hall : (elements segs).drop k = elements (s :: rest))
      (hactive : Active store d) (hstate : d.state = .waitReadDataAck)
      (hmode : d.headerMode = true) (hwrite : d.dataWrite = false)
      (haddr : d.ramAddr = s.hdr + BitVec.ofNat 28 i)
      (hlen : d.lengthRemaining = BitVec.ofNat V (2 - i))
      (hlength : 1 ≤ i → d.header headerDataLength = mem s.hdr)
      (hdata : 2 ≤ i → d.header headerDataAddr = mem (s.hdr + 1#28))
      (hbram : d.bramAddr.toNat = k)
  | data (j : Nat) (s : Segment) (rest : List Segment) (hj : j < s.len)
      (hh : 3 ≤ h ∧ h ≤ 3 * k + 3) (hsuf : s :: rest <:+ segs) (hlist : ListAt V mem (s :: rest))
      (hall : (elements segs).drop k = s.addrs.drop j ++ elements rest)
      (hactive : Active store d)
      (hstate : d.state = if store then .waitWriteDataAck else .waitReadDataAck)
      (hmode : d.headerMode = false) (hwrite : d.dataWrite = store)
      (haddr : d.ramAddr = s.data + BitVec.ofNat 28 j)
      (hlen : d.lengthRemaining.toNat + (j + 1) = s.len)
      (hnext : d.header headerNext = mem (s.hdr + 2#28))
      (hbram : d.bramAddr.toNat = if store then k + 1 else k)

variable {mem : Mem} {segs : List Segment} {store : Bool} {d : Dma V} {i : DmaInput} {h k : Nat}

theorem Walk.active (hw : Walk mem segs store d h k) : Active store d := by
  cases hw <;> assumption

theorem Walk.count (hw : Walk mem segs store d h k) :
    h ≤ 3 * k + 3 ∧ (d.headerMode = false → 3 ≤ h) := by
  cases hw with
  | header n s rest hi hh _ _ _ _ _ hmode => exact ⟨by omega, by simp [hmode]⟩
  | data j s rest _ hh => exact ⟨hh.2, fun _ => hh.1⟩

/-- A header is read from where it lies. -/
theorem Walk.header_mem (hw : Walk mem segs store d h k) (hmode : d.headerMode = true) :
    d.ramAddr ∈ headers segs := by
  cases hw with
  | data j s rest _ _ _ _ _ _ _ hmode' => simp [hmode] at hmode'
  | header n s rest hi hh hsuf _ _ _ _ _ _ haddr =>
      have hs : s ∈ segs := hsuf.subset List.mem_cons_self
      refine List.mem_flatMap.2 ⟨s, hs, ?_⟩
      rw [haddr]
      interval_cases n <;> simp

/-- The unit writes the elements of a store, and nothing else. -/
theorem Walk.dataWrite_eq (hw : Walk mem segs store d h k) :
    d.dataWrite = (store && !d.headerMode) := by
  cases hw with
  | header n s rest _ _ _ _ _ _ _ hmode hwrite => simp [hmode, hwrite]
  | data j s rest _ _ _ _ _ _ _ hmode hwrite => simp [hmode, hwrite]

/-- Some element is left while the unit walks. -/
theorem Walk.lt (hw : Walk mem segs store d h k) : k < (elements segs).length := by
  have hne : (elements segs).drop k ≠ [] := by
    cases hw with
    | header i s rest _ _ _ hlist hall =>
        have hpos := hlist.1.pos
        rw [hall, elements_cons]
        intro hnil
        have := congrArg List.length (List.append_eq_nil_iff.1 hnil).1
        simp at this
        omega
    | data j s rest hj _ _ _ hall =>
        rw [hall, drop_addrs hj]
        simp
  by_contra hle
  exact hne (List.drop_eq_nil_of_le (by omega))

/-- A change of the FIFO registers alone. -/
theorem Walk.step (hw : Walk mem segs store (d.control i) h k) :
    Walk mem segs store (d.step i) h k := by
  have hcongr : ∀ fifo reset indexIn ready,
      Walk mem segs store
        { d.control i with
          wdataFifo := fifo
          wdataFifoReset := reset
          indexIn := indexIn
          bramRdataReady := ready } h k := by
    intro fifo reset indexIn ready
    cases hw with
    | header n s rest hi hh hsuf hlist hall hactive hstate hmode hwrite haddr hlen hlength hdata hbram =>
        exact .header n s rest hi hh hsuf hlist hall ⟨hactive.1, hactive.2, hactive.3, hactive.4⟩ hstate
          hmode hwrite haddr hlen hlength hdata hbram
    | data j s rest hj hh hsuf hlist hall hactive hstate hmode hwrite haddr hlen hnext hbram =>
        exact .data j s rest hj hh hsuf hlist hall ⟨hactive.1, hactive.2, hactive.3, hactive.4⟩ hstate
          hmode hwrite haddr hlen hnext hbram
  unfold Dma.step
  split
  · exact hcongr _ _ _ _
  · split
    · exact hcongr _ _ _ _
    · exact hcongr _ _ _ _

/-- What the state machine does in a clock of a walk before it looks at the bus. -/
def Dma.prepare (d : Dma V) : Dma V :=
  { d with
    next := false
    wdataFifoReset := if d.state = .waitReadDataAck then false else d.wdataFifoReset }

theorem Walk.prepare (hw : Walk mem segs store d h k) : Walk mem segs store d.prepare h k := by
  cases hw with
  | header n s rest hi hh hsuf hlist hall hactive hstate hmode hwrite haddr hlen hlength hdata hbram =>
      exact .header n s rest hi hh hsuf hlist hall ⟨hactive.1, hactive.2, hactive.3, rfl⟩ hstate
        hmode hwrite haddr hlen hlength hdata hbram
  | data j s rest hj hh hsuf hlist hall hactive hstate hmode hwrite haddr hlen hnext hbram =>
      exact .data j s rest hj hh hsuf hlist hall ⟨hactive.1, hactive.2, hactive.3, rfl⟩ hstate
        hmode hwrite haddr hlen hnext hbram

/-- The state machine at work: it writes the elements of a store, and reads all else. -/
theorem control_working
    (hstate : d.state =
      if store && !d.headerMode then .waitWriteDataAck else .waitReadDataAck) :
    d.control i =
      if i.dataReady then
        if store && !d.headerMode then d.prepare.writeAck else d.prepare.readAck i
      else d.prepare := by
  unfold Dma.control Dma.prepare
  cases hwork : store && !d.headerMode with
  | false =>
      rw [hwork, if_neg (by simp)] at hstate
      simp [hstate]
  | true =>
      rw [hwork, if_pos rfl] at hstate
      simp [hstate]

theorem Walk.control_eq (hw : Walk mem segs store d h k) :
    d.control i =
      if i.dataReady then
        if store && !d.headerMode then d.prepare.writeAck else d.prepare.readAck i
      else d.prepare := by
  apply control_working
  cases hw with
  | header n s rest _ _ _ _ _ _ hstate hmode => simp [hstate, hmode]
  | data j s rest _ _ _ _ _ _ hstate hmode => simp [hstate, hmode]

theorem readAck_fifo : (d.readAck i).indexOut = d.indexOut ∧
    (d.readAck i).wdataFifoReset = d.wdataFifoReset := by
  unfold Dma.readAck Dma.jumpNext
  split_ifs <;> exact ⟨rfl, rfl⟩

theorem writeAck_fifo : d.writeAck.indexOut = d.indexOut + 1 ∧
    d.writeAck.wdataFifoReset = d.wdataFifoReset := by
  unfold Dma.writeAck Dma.jumpNext
  split_ifs <;> exact ⟨rfl, rfl⟩

/-- An element is taken from the FIFO when it was written. -/
theorem Walk.control_indexOut (hw : Walk mem segs store d h k) :
    (d.control i).indexOut =
      if i.dataReady && (store && !d.headerMode) then d.indexOut + 1 else d.indexOut := by
  rw [hw.control_eq]
  cases i.dataReady with
  | false => rfl
  | true =>
      rw [if_pos rfl, Bool.true_and]
      split
      · exact writeAck_fifo.1
      · exact readAck_fifo.1

/-- The reset of the FIFO lasts for one clock. -/
theorem Walk.control_reset (hw : Walk mem segs store d h k)
    (hreset : d.headerMode = true ∨ d.wdataFifoReset = false) :
    (d.control i).wdataFifoReset = false := by
  have hprepare : d.prepare.wdataFifoReset = false := by
    unfold Dma.prepare
    dsimp only
    cases hw with
    | header n s rest _ _ _ _ _ _ hstate => rw [if_pos hstate]
    | data j s rest _ _ _ _ _ _ _ hmode =>
        have hoff : d.wdataFifoReset = false := hreset.resolve_left (by simp [hmode])
        rw [hoff, ite_self]
  rw [hw.control_eq]
  split
  · split
    · exact writeAck_fifo.2.trans hprepare
    · exact readAck_fifo.2.trans hprepare
  · exact hprepare

/-- Within a header, and at the last word of a segment, the length says where the end is. -/
theorem atEnd_eq (hmsb : d.bramAddr.toNat < 2 ^ V) :
    d.atEnd = (d.lengthRemaining == 0#V) := by
  have h : d.bramAddr.msb = false := by
    rw [BitVec.msb_eq_false_iff_two_mul_lt]
    rw [Nat.pow_succ]
    omega
  rw [Dma.atEnd, h, Bool.false_or]

/-- The length while a header is read. -/
theorem ofNat_two_sub {n : Nat} (hV : 2 ≤ V) (hn : n ≤ 1) :
    BitVec.ofNat V (2 - n) ≠ 0#V ∧ BitVec.ofNat V (2 - n) - 1#V = BitVec.ofNat V (2 - (n + 1)) ∧
      (BitVec.ofNat V (2 - n)).setWidth 2 = BitVec.ofNat 2 (2 - n) := by
  have hlt : 2 ^ 2 ≤ 2 ^ V := Nat.pow_le_pow_right (by decide) hV
  have hmod : ∀ m, m ≤ 2 → m % 2 ^ V = m := fun m hm => Nat.mod_eq_of_lt (by omega)
  refine ⟨?_, ?_, ?_⟩
  · intro h
    have hzero := congrArg BitVec.toNat h
    rw [BitVec.toNat_ofNat, hmod _ (by omega), BitVec.toNat_zero] at hzero
    omega
  · apply BitVec.eq_of_toNat_eq
    rw [BitVec.toNat_sub, BitVec.toNat_ofNat, BitVec.toNat_ofNat, BitVec.toNat_ofNat,
      hmod 1 (by omega), hmod (2 - n) (by omega), hmod (2 - (n + 1)) (by omega),
      show 2 ^ V - 1 + (2 - n) = 2 - (n + 1) + 2 ^ V by omega, Nat.add_mod_right,
      hmod _ (by omega)]
  · apply BitVec.eq_of_toNat_eq
    rw [BitVec.toNat_setWidth, BitVec.toNat_ofNat, BitVec.toNat_ofNat, hmod _ (by omega)]

/-- The field for the length fits the counter of the unit. -/
theorem HeaderAt.setWidth_len {s : Segment} (h : HeaderAt V mem s) (hV : V ≤ 16) :
    ((mem s.hdr).setWidth V).toNat + 1 = s.len := by
  have hlen := h.len
  have hfits := h.fits
  rw [BitVec.toNat_setWidth] at hlen ⊢
  have hdvd : 2 ^ V ∣ 2 ^ 16 := Nat.pow_dvd_pow 2 hV
  rw [← Nat.mod_mod_of_dvd _ hdvd, Nat.mod_eq_of_lt (by omega)]
  exact hlen

theorem add_ofNat_succ (a : Addr) (n : Nat) :
    a + BitVec.ofNat 28 n + 1 = a + BitVec.ofNat 28 (n + 1) := by
  rw [BitVec.add_assoc, BitVec.ofNat_add]
  rfl

/-- The count of elements has a bit more than their number needs. -/
theorem toNat_succ {x : BitVec (V + 1)} {n : Nat} (h : x.toNat = n) (hn : n < 2 ^ V) :
    (x + 1).toNat = n + 1 := by
  have hpow : 2 ^ (V + 1) = 2 ^ V * 2 := Nat.pow_succ 2 V
  have hone : (1 : BitVec (V + 1)).toNat = 1 := by
    change 1 % 2 ^ (V + 1) = 1
    exact Nat.mod_eq_of_lt (by omega)
  rw [BitVec.toNat_add, hone, h, Nat.mod_eq_of_lt (by omega)]

variable (hV : 2 ≤ V ∧ V ≤ 16) (hfit : (elements segs).length ≤ 2 ^ V)

include hV hfit in
/-- A word of a header is read. -/
theorem Walk.readHeader (hw : Walk mem segs store d h k) (hmode : d.headerMode = true)
    (hin : i.dataIn = mem d.ramAddr) : Walk mem segs store (d.readAck i) (h + 1) k := by
  have hlt := hw.lt
  cases hw with
  | data j s rest _ _ _ _ _ _ _ hmode' =>
      rw [hmode] at hmode'
      simp at hmode'
  | header n s rest hi hh hsuf hlist hall hactive hstate _ hwrite haddr hlen hlength hdata hbram =>
      have hend := @atEnd_eq V d (by omega)
      rw [hlen] at hend
      by_cases hn : n ≤ 1
      · obtain ⟨hne, hsub, hidx⟩ := ofNat_two_sub hV.1 hn
        have hgo : d.atEnd = false := by simpa [hend] using hne
        rw [Dma.readAck, if_neg (by simp [hgo]), if_pos hmode]
        refine .header (n + 1) s rest (by omega) (by omega) hsuf hlist hall
          ⟨hactive.1, hactive.2, hactive.3, hactive.4⟩ hstate hmode hwrite ?_ ?_ ?_ ?_ hbram
        · dsimp only
          rw [haddr, add_ofNat_succ]
        · dsimp only
          rw [hlen, ← hsub]
          rfl
        · intro _
          dsimp only
          rw [hlen, hidx]
          obtain rfl | rfl : n = 0 ∨ n = 1 := by omega
          · rw [hin, haddr]
            simp
          · rw [Function.update_of_ne (by decide)]
            exact hlength (Nat.le_refl 1)
        · intro h2
          obtain rfl : n = 1 := by omega
          dsimp only
          rw [hlen, hidx, hin, haddr]
          simp
      · obtain rfl : n = 2 := by omega
        have hgo : d.atEnd = true := by simpa using hend
        have hheader := hlist.1
        have hpos := hheader.pos
        have hdata0 : wordAddr (d.header headerDataAddr) = s.data + BitVec.ofNat 28 0 := by
          rw [hdata (Nat.le_refl 2), hheader.data]
          simp
        have hlen0 : ((d.header headerDataLength).setWidth V).toNat + (0 + 1) = s.len := by
          rw [hlength (by omega)]
          exact hheader.setWidth_len hV.2
        have hnext0 : Function.update d.header headerNext i.dataIn headerNext =
            mem (s.hdr + 2#28) := by
          rw [Function.update_self, hin, haddr]
        rw [Dma.readAck, if_pos hgo, if_pos hmode]
        cases store with
        | false =>
            rw [if_neg (by simp [hactive.storeMode])]
            exact .data 0 s rest hpos (by omega) hsuf hlist hall
              ⟨hactive.1, hactive.2, hactive.3, hactive.4⟩ hstate rfl hwrite hdata0 hlen0 hnext0 hbram
        | true =>
            rw [if_pos (by simp [hactive.storeMode])]
            refine .data 0 s rest hpos (by omega) hsuf hlist hall
              ⟨hactive.1, hactive.2, hactive.3, hactive.4⟩ rfl rfl rfl hdata0 hlen0 hnext0 ?_
            exact toNat_succ hbram (by omega)

/-- The clock in which an element is moved. -/
def Dma.elementAck (store : Bool) (d : Dma V) (i : DmaInput) : Dma V :=
  if store then d.writeAck else d.readAck i

theorem toNat_pred {x : BitVec V} {n : Nat} (hV : 2 ≤ V) (h : x.toNat = n + 1) :
    (x - 1).toNat = n := by
  have hlt : 2 ^ 2 ≤ 2 ^ V := Nat.pow_le_pow_right (by decide) hV
  have hone : (1 : BitVec V).toNat = 1 := Nat.mod_eq_of_lt (show 1 < 2 ^ V by omega)
  rw [BitVec.toNat_sub_of_le (by rw [BitVec.le_def, hone]; omega), hone, h]
  rfl

include hV hfit in
/-- An element that is not the last one of its segment. -/
theorem elementAck_within {j : Nat} {s : Segment} {rest : List Segment} (hj : j + 1 < s.len)
    (hh : 3 ≤ h ∧ h ≤ 3 * k + 3) (hsuf : s :: rest <:+ segs)
    (hlist : ListAt V mem (s :: rest))
    (hall : (elements segs).drop (k + 1) = s.addrs.drop (j + 1) ++ elements rest)
    (hactive : Active store d)
    (hstate : d.state = if store then .waitWriteDataAck else .waitReadDataAck)
    (hmode : d.headerMode = false) (hwrite : d.dataWrite = store)
    (haddr : d.ramAddr = s.data + BitVec.ofNat 28 j)
    (hlen : d.lengthRemaining.toNat + (j + 1) = s.len)
    (hnext : d.header headerNext = mem (s.hdr + 2#28))
    (hbram : d.bramAddr.toNat = if store then k + 1 else k) :
    Walk mem segs store (d.elementAck store i) h (k + 1) := by
  have hmore : k + 1 < (elements segs).length := by
    by_contra hle
    rw [List.drop_eq_nil_of_le (by omega), drop_addrs hj] at hall
    simp at hall
  have hgo : d.atEnd = false := by
    rw [atEnd_eq (by split at hbram <;> omega), beq_eq_false_iff_ne]
    intro hzero
    rw [hzero, BitVec.toNat_zero] at hlen
    omega
  have haddr' : d.ramAddr + 1 = s.data + BitVec.ofNat 28 (j + 1) := by
    rw [haddr, add_ofNat_succ]
  have hlen' : (d.lengthRemaining - 1).toNat + (j + 1 + 1) = s.len := by
    rw [toNat_pred hV.1 (show d.lengthRemaining.toNat = s.len - (j + 2) + 1 by omega)]
    omega
  have hbram' : (d.bramAddr + 1).toNat = if store then k + 1 + 1 else k + 1 := by
    cases store <;> exact toNat_succ hbram (by omega)
  cases store with
  | false =>
      rw [Dma.elementAck, if_neg (by simp), Dma.readAck, if_neg (by simp [hgo]),
        if_neg (by simp [hmode])]
      exact .data (j + 1) s rest hj (by omega) hsuf hlist hall ⟨hactive.1, hactive.2, hactive.3, hactive.4⟩
        hstate hmode hwrite haddr' hlen' hnext hbram'
  | true =>
      rw [Dma.elementAck, if_pos rfl, Dma.writeAck, if_neg (by simp [hgo])]
      exact .data (j + 1) s rest hj (by omega) hsuf hlist hall ⟨hactive.1, hactive.2, hactive.3, hactive.4⟩
        hstate hmode hwrite haddr' hlen' hnext hbram'

include hfit in
/-- The last element of a segment, before another one. -/
theorem elementAck_jump {s s' : Segment} {rest : List Segment} (hlt : k < (elements segs).length)
    (hh : 3 ≤ h ∧ h ≤ 3 * k + 3) (hsuf : s :: s' :: rest <:+ segs)
    (hlist : ListAt V mem (s :: s' :: rest)) (hall : (elements segs).drop (k + 1) = elements (s' :: rest))
    (hactive : Active store d)
    (hstate : d.state = if store then .waitWriteDataAck else .waitReadDataAck)
    (hmode : d.headerMode = false) (hwrite : d.dataWrite = store)
    (hlen : d.lengthRemaining = 0#V)
    (hnext : d.header headerNext = mem (s.hdr + 2#28))
    (hbram : d.bramAddr.toNat = if store then k + 1 else k) :
    Walk mem segs store (d.elementAck store i) h (k + 1) := by
  obtain ⟨-, hptr, hhdr, hlist'⟩ := hlist
  rw [← hnext] at hptr hhdr
  have hsuf' : s' :: rest <:+ segs := (List.suffix_cons s _).trans hsuf
  have hgo : d.atEnd = true := by simp [Dma.atEnd, hlen]
  have haddr' : wordAddr (d.header headerNext) = s'.hdr + BitVec.ofNat 28 0 := by
    rw [hhdr]
    simp
  cases store with
  | false =>
      rw [Dma.elementAck, if_neg (by simp), Dma.readAck, if_pos hgo, if_neg (by simp [hmode]),
        if_neg hptr]
      exact .header 0 s' rest (by omega) (by omega) hsuf' hlist' hall
        ⟨hactive.1, hactive.2, hactive.3, hactive.4⟩ hstate rfl hwrite haddr' rfl (by omega)
        (by omega) (toNat_succ hbram (by omega))
  | true =>
      rw [Dma.elementAck, if_pos rfl, Dma.writeAck, if_pos hgo, if_neg hptr]
      exact .header 0 s' rest (by omega) (by omega) hsuf' hlist' hall
        ⟨hactive.1, hactive.2, hactive.3, hactive.4⟩ rfl rfl rfl haddr' rfl (by omega)
        (by omega) hbram

/-- The last element of all. -/
theorem elementAck_last (hactive : Active store d) (hmode : d.headerMode = false)
    (hwrite : d.dataWrite = store) (hgo : d.atEnd = true)
    (hnext : d.header headerNext = 0) : Ending store (d.elementAck store i) := by
  cases store with
  | false =>
      rw [Dma.elementAck, if_neg (by simp), Dma.readAck, if_pos hgo, if_neg (by simp [hmode]),
        if_pos hnext]
      exact ⟨rfl, fun h => by simp at h, rfl, hwrite, rfl, rfl⟩
  | true =>
      rw [Dma.elementAck, if_pos rfl, Dma.writeAck, if_pos hgo, if_pos hnext]
      exact ⟨rfl, fun _ => rfl, rfl, rfl, rfl, rfl⟩

include hV hfit in
/-- An element is moved: it is the next one, and the walk goes on behind it or ends. -/
theorem Walk.moveElement (hw : Walk mem segs store d h k) (hmode : d.headerMode = false) :
    (elements segs)[k]? = some d.ramAddr ∧
      (Walk mem segs store (d.elementAck store i) h (k + 1) ∨
        k + 1 = (elements segs).length ∧ Ending store (d.elementAck store i)) := by
  have hlt := hw.lt
  cases hw with
  | header n s rest _ _ _ _ _ _ _ hmode' =>
      rw [hmode] at hmode'
      simp at hmode'
  | data j s rest hj hh hsuf hlist hall hactive hstate _ hwrite haddr hlen hnext hbram =>
      rw [drop_addrs hj, List.cons_append] at hall
      have hhead : (elements segs)[k]? = some d.ramAddr := by
        rw [haddr, ← List.head?_drop, hall]
        rfl
      have htail : (elements segs).drop (k + 1) = s.addrs.drop (j + 1) ++ elements rest := by
        rw [← List.tail_drop, hall]
        rfl
      refine ⟨hhead, ?_⟩
      by_cases hmore : j + 1 < s.len
      · exact .inl (elementAck_within hV hfit hmore hh hsuf hlist htail hactive hstate hmode hwrite haddr
          hlen hnext hbram)
      have hzero : d.lengthRemaining = 0#V := by
        apply BitVec.eq_of_toNat_eq
        rw [BitVec.toNat_zero]
        omega
      have hdone : s.addrs.drop (j + 1) = [] :=
        List.drop_eq_nil_of_le (by rw [length_addrs]; omega)
      rw [hdone, List.nil_append] at htail
      cases rest with
      | nil =>
          right
          refine ⟨?_, elementAck_last hactive hmode hwrite (by simp [Dma.atEnd, hzero])
            (hnext.trans hlist.2)⟩
          have hnil := List.drop_eq_nil_iff.1 htail
          omega
      | cons s' rest =>
          exact .inl (elementAck_jump hfit hlt hh hsuf hlist htail hactive hstate hmode hwrite hzero hnext
            hbram)

theorem Ending.step (he : Ending store (d.control i)) : Ending store (d.step i) := by
  unfold Dma.step
  split
  · exact ⟨he.1, he.2, he.3, he.4, he.5, he.6⟩
  · split
    · exact ⟨he.1, he.2, he.3, he.4, he.5, he.6⟩
    · exact ⟨he.1, he.2, he.3, he.4, he.5, he.6⟩

theorem Walk.step_wait (hw : Walk mem segs store d h k) (hready : i.dataReady = false) :
    Walk mem segs store (d.step i) h k := by
  apply Walk.step
  rw [hw.control_eq, if_neg (by simp [hready])]
  exact hw.prepare

include hV hfit in
theorem Walk.step_header (hw : Walk mem segs store d h k) (hready : i.dataReady = true)
    (hmode : d.headerMode = true) (hin : i.dataIn = mem d.ramAddr) :
    Walk mem segs store (d.step i) (h + 1) k := by
  apply Walk.step
  rw [hw.control_eq, if_pos hready, if_neg (by simp [hmode])]
  exact hw.prepare.readHeader hV hfit hmode hin

include hV hfit in
theorem Walk.step_element (hw : Walk mem segs store d h k) (hready : i.dataReady = true)
    (hmode : d.headerMode = false) :
    (elements segs)[k]? = some d.ramAddr ∧
      (Walk mem segs store (d.step i) h (k + 1) ∨
        k + 1 = (elements segs).length ∧ Ending store (d.step i)) := by
  have hcontrol : d.control i = d.prepare.elementAck store i := by
    rw [hw.control_eq, if_pos hready, Dma.elementAck]
    simp [hmode]
  obtain ⟨hhead, hgo | ⟨hlast, hend⟩⟩ := @Walk.moveElement V mem segs store d.prepare i h k hV hfit
    hw.prepare hmode
  · exact ⟨hhead, .inl (Walk.step (hcontrol ▸ hgo))⟩
  · exact ⟨hhead, .inr ⟨hlast, Ending.step (hcontrol ▸ hend)⟩⟩

end Walk

end Vector
end F32c
