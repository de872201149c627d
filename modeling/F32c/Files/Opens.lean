import F32c.Files.Calls

/-!
# The calls that open files

`open`, `sio_open` and `pipe` on a consistent table: each of them either fails
and leaves the table as it was, or adds one file.  `pipe` takes two references,
and the result leaves out the runs in which only one of them succeeds.
-/

namespace F32c
namespace Files

section Open

variable {k t u : Kernel} {p q fd : Nat} {f : File} {v : Priv}

theorem tableInv_of_eq (h : TableInv k) (hslots : t.slots.length = k.slots.length)
    (hts : t.tsFiles = k.tsFiles) (hnext : k.next ≤ t.next) : TableInv t where
  size := by rw [hslots]; exact h.size
  heap := by rw [hslots, hts]; exact h.heap
  old := by
    intro b hb
    rw [hts] at hb
    exact Nat.lt_of_lt_of_le (h.old b hb) hnext

theorem Failed.refl (h : TableInv k) : Failed k k where
  files := rfl
  privs := rfl
  sioFoClose := rfl
  slots := ⟨0, by simp⟩
  table := h
  evolves := ⟨[], Evolves.quiet (Kept.of_eq rfl rfl rfl rfl) rfl⟩

theorem newFile_freed (h : Fresh k) : (freedFile k.next (newFile k)).files = k.files := by
  have hnone := (h k.next (Nat.le_refl _)).1
  simp only [freedFile, newFile, Function.update_idem]
  rw [← hnone, Function.update_eq_self]

theorem set_free {l : List (Option Nat)} (h : l[fd]? = some none) : l.set fd none = l := by
  obtain ⟨hlt, hget⟩ := List.getElem?_eq_some_iff.mp h
  rw [← hget, List.set_getElem_self]

/-- Clearing the slot `fd_ref` has filled leaves the table as it was, perhaps grown. -/
theorem Referred.slots_cleared (h : Referred k t fd p f) :
    ∃ n, t.slots.set fd none = k.slots ++ List.replicate n none := by
  obtain ⟨n, hn, hget, -⟩ := h.slots
  exact ⟨n, by rw [hn, List.set_set, set_free hget]⟩

theorem Referred.refs (h : Referred k t fd p f) (p' : Nat) :
    Files.refs t p' = Files.refs k p' + if p' = p then 1 else 0 := by
  obtain ⟨n, hn, hget, -⟩ := h.slots
  rw [Files.refs, Files.refs, hn, count_set_free hget, count_append_free]

theorem Referred.file (h : Referred k t fd p f) :
    t.files p = some { f with fRefc := (f.fRefc + 1) % 2 ^ 16 } := by
  rw [h.files, Function.update_self]

/-- The state after a file was allocated and referred to by a descriptor. -/
theorem fdRef_newFile (h : TableInv k) (tableOk : Bool) :
    fdRef tableOk (some k.next) (newFile k) = .ok (none, newFile k) ∨
    ∃ fd t, fdRef tableOk (some k.next) (newFile k) = .ok (some fd, t) ∧
      Referred (newFile k) t fd k.next zeroFile := by
  have htable : TableInv (newFile k) := tableInv_of_eq h rfl rfl (Nat.le_succ _)
  have hfile : (newFile k).files k.next = some zeroFile := by simp [newFile]
  rcases fdRef_spec htable hfile tableOk with ⟨-, -, hnone⟩ | ⟨-, fd, t, hsome, href⟩
  · exact Or.inl hnone
  · exact Or.inr ⟨fd, t, hsome, href⟩

theorem failed_newFile (hf : Fresh k) (h : TableInv k) :
    Failed k (freedFile k.next (newFile k)) where
  files := newFile_freed hf
  privs := rfl
  sioFoClose := rfl
  slots := ⟨0, by simp [freedFile, newFile]⟩
  table := tableInv_of_eq h rfl rfl (Nat.le_succ _)
  evolves := ⟨_, (newFile_evolves k).trans
    (freedFile_evolves (Nat.lt_succ_self _) (by simp [newFile]))⟩

/-- A descriptor that is given up again. -/
def cleared (fd : Nat) (k : Kernel) : Kernel :=
  { k with slots := k.slots.set fd none }

theorem cleared_evolves (fd : Nat) (k : Kernel) : Evolves k (cleared fd k) [] :=
  Evolves.quiet (Kept.of_eq rfl rfl rfl rfl) rfl

/-- The file of `open` before `ff_open`. -/
def unopenedFile : File where
  fOps := none
  fPriv := none
  fileMalloced := true
  fRefc := 1

/-- The file of `open` after `ff_open`, with its private data at `q`. -/
def ffFile (q : Nat) : File where
  fOps := some .ff
  fPriv := some q
  fileMalloced := true
  fRefc := 1

/-- The state after `ff_open` has allocated the private data of the file at `p`. -/
def ffOpened (p : Nat) (t : Kernel) : Kernel :=
  storeFile p (ffFile t.next) (newPriv .fil (storeFile p unopenedFile t))

/-- What `open` relies on after `fd_ref` has referred to its new file. -/
theorem fdRef_open (h : Consistent k) (ht : Referred (newFile k) t fd k.next zeroFile) :
    t.files k.next = some { zeroFile with fRefc := 1 } ∧
      Function.update k.files k.next none = k.files ∧ k.next < t.next ∧
      t.privs t.next = none ∧ ∃ new, Evolves k (storeFile k.next unopenedFile t) new := by
  have hnone := (h.fresh k.next (Nat.le_refl _)).1
  have hnext : k.next < t.next := Nat.lt_of_lt_of_le (Nat.lt_succ_self _) ht.next
  have hfile : t.files k.next = some { zeroFile with fRefc := 1 } := ht.file
  obtain ⟨new, hev⟩ := ht.evolves (tableInv_of_eq h.table rfl rfl (Nat.le_succ _))
    (by simp [newFile])
  refine ⟨hfile, ?_, hnext, ?_, _, ((newFile_evolves k).trans hev).trans
    (storeFile_evolves (by simp [hfile]) _)⟩
  · rw [← hnone, Function.update_eq_self]
  · rw [ht.privs]
    exact (h.fresh t.next (Nat.le_of_lt hnext)).2

/-- `open` gives up when the private data cannot be allocated. -/
theorem failed_unopened (h : Consistent k) (ht : Referred (newFile k) t fd k.next zeroFile) :
    Failed k (freedFile k.next (cleared fd (storeFile k.next unopenedFile t))) := by
  obtain ⟨-, hgone, hnext, -, new, hev⟩ := fdRef_open h ht
  exact
    { files := by simp [freedFile, cleared, storeFile, ht.files, newFile, hgone]
      privs := ht.privs
      sioFoClose := ht.sioFoClose
      slots := ht.slots_cleared
      table := tableInv_of_eq ht.table (by simp [freedFile, cleared, storeFile]) rfl (Nat.le_refl _)
      evolves := ⟨_, (hev.trans (cleared_evolves fd _)).trans
        (freedFile_evolves hnext (by simp [cleared, storeFile]))⟩ }

theorem ffOpened_evolves (h : Consistent k) (ht : Referred (newFile k) t fd k.next zeroFile) :
    ∃ new, Evolves k (ffOpened k.next t) new := by
  obtain ⟨-, -, -, -, new, hev⟩ := fdRef_open h ht
  exact ⟨_, (hev.trans (newPriv_evolves _ _)).trans
    (storeFile_evolves (by simp [newPriv, storeFile]) _)⟩

/-- `open` gives up when the file system cannot open the path. -/
theorem failed_ffOpened (h : Consistent k) (ht : Referred (newFile k) t fd k.next zeroFile) :
    Failed k (freedFile k.next (freedPriv t.next (cleared fd (ffOpened k.next t)))) := by
  obtain ⟨-, hgone, hnext, hpriv, -⟩ := fdRef_open h ht
  obtain ⟨new, hev⟩ := ffOpened_evolves h ht
  exact
    { files := by
        simp [freedFile, freedPriv, cleared, ffOpened, storeFile, newPriv, ht.files, newFile, hgone]
      privs := by
        simp only [freedFile, freedPriv, cleared, ffOpened, storeFile, newPriv,
          Function.update_idem]
        rw [← hpriv, Function.update_eq_self, ht.privs]
        rfl
      sioFoClose := ht.sioFoClose
      slots := ht.slots_cleared
      table := tableInv_of_eq ht.table
        (by simp [freedFile, freedPriv, cleared, ffOpened, storeFile, newPriv]) rfl (Nat.le_succ _)
      evolves := ⟨_, (hev.trans (cleared_evolves fd _)).trans
        ((freedPriv_evolves (Nat.lt_succ_self _)
          (by simp [cleared, ffOpened, storeFile, newPriv])).trans
        (freedFile_evolves (Nat.lt_succ_of_lt hnext)
          (by simp [freedPriv, cleared, ffOpened, storeFile, newPriv])))⟩ }

theorem added_ffOpened (h : Consistent k) (ht : Referred (newFile k) t fd k.next zeroFile) :
    Added k (ffOpened k.next t) k.next t.next (ffFile t.next) .fil := by
  obtain ⟨-, -, hnext, -, -⟩ := fdRef_open h ht
  exact
    { files := by simp [ffOpened, storeFile, newPriv, ht.files, newFile]
      privs := by simp [ffOpened, storeFile, newPriv, ht.privs, newFile]
      file_range := ⟨Nat.le_refl _, Nat.lt_succ_of_lt hnext⟩
      priv_range := ⟨Nat.le_of_lt hnext, Nat.lt_succ_self _⟩
      priv := rfl
      malloced := rfl
      refc := ⟨by simp [ffFile], by simp [ffFile]⟩
      refs := ht.refs
      closing := by
        intro hc
        exact ht.sioFoClose.trans hc
      ops := ⟨.ff, rfl, by simp⟩
      table := tableInv_of_eq ht.table rfl rfl (Nat.le_succ _)
      evolves := ffOpened_evolves h ht }

theorem openFile_spec (h : Consistent k) (fileOk tableOk filOk : Bool) (res : FResult) :
    (∃ e t, openFile fileOk tableOk filOk res k = .ok (.error e, t) ∧ Failed k t) ∨
    (∃ (fd : Int) (t : Kernel) (p q : Nat) (f : File) (v : Priv),
      openFile fileOk tableOk filOk res k = .ok (.ok fd, t) ∧ Added k t p q f v) := by
  cases fileOk with
  | false => exact Or.inl ⟨.enfile, k, rfl, Failed.refl h.table⟩
  | true =>
      rcases fdRef_newFile h.table tableOk with href | ⟨fd, t, href, ht⟩
      · refine Or.inl ⟨.enfile, freedFile k.next (newFile k), ?_, failed_newFile h.fresh h.table⟩
        have hfree := freeFile_eq (k := newFile k) (p := k.next) (by simp [newFile])
        simp [openFile, callocFile_true, href, hfree, bind, Except.bind]
      · have hfile := (fdRef_open h ht).1
        cases filOk with
        | false =>
            refine Or.inl ⟨.enomem, _, ?_, failed_unopened h ht⟩
            simp [openFile, callocFile_true, href, hfile, bind, Except.bind, ffOpen, allocPriv,
              derefFile, storeFile, freePriv, freeFile, freedFile, cleared, zeroFile]
        | true =>
            cases hres : ffres2errno res with
            | ok _ =>
                refine Or.inr ⟨fd, _, _, _, _, _, ?_, added_ffOpened h ht⟩
                simp [openFile, callocFile_true, href, hfile, bind, Except.bind, ffOpen, allocPriv,
                  derefFile, storeFile, newPriv, zeroFile, hres, ffOpened, ffFile]
            | error e =>
                refine Or.inl ⟨e, _, ?_, failed_ffOpened h ht⟩
                simp [openFile, callocFile_true, href, hfile, bind, Except.bind, ffOpen, allocPriv,
                  derefFile, storeFile, newPriv, zeroFile, hres, freePriv, freeFile, freedFile,
                  freedPriv, cleared, ffOpened, ffFile]

end Open

section Devices

variable {k t u : Kernel} {p q fd : Nat} {f : File} {v : Priv}

theorem newPriv_fresh (h : Fresh k) (v : Priv) : Fresh (newPriv v k) := by
  intro p hp
  have hp' : k.next + 1 ≤ p := hp
  have hk := h p (by omega)
  simp only [newPriv]
  rw [Function.update_of_ne (by omega)]
  exact hk

theorem newPriv_table (h : TableInv k) (v : Priv) : TableInv (newPriv v k) :=
  tableInv_of_eq h rfl rfl (Nat.le_succ _)

/-- A device gives up: its private data, allocated first, is freed last. -/
theorem failed_newPriv (hf : Fresh k) (h : Failed (newPriv v k) t) :
    Failed k (freedPriv k.next t) := by
  have hnone := (hf k.next (Nat.le_refl _)).2
  obtain ⟨new, hev⟩ := h.evolves
  have hlive : t.privs k.next ≠ none := by simp [h.privs, newPriv]
  exact
    { files := h.files
      privs := by
        simp only [freedPriv, h.privs, newPriv, Function.update_idem]
        rw [← hnone, Function.update_eq_self]
      sioFoClose := h.sioFoClose
      slots := h.slots
      table := tableInv_of_eq h.table rfl rfl (Nat.le_refl _)
      evolves := ⟨_, ((newPriv_evolves v k).trans hev).trans
        (freedPriv_evolves (Nat.lt_of_lt_of_le (Nat.lt_succ_self _) hev.kept.next) hlive)⟩ }

/-- The file of a device that has referred to it `n` times. -/
def deviceFile (o : Fileops) (q n : Nat) : File where
  fOps := some o
  fPriv := some q
  fileMalloced := true
  fRefc := n

/-- The serial port at `unit` is attached to the file at `p`. -/
def sioAttached (unit p q : Nat) (t : Kernel) : Kernel :=
  { t with
    sioFiles := t.sioFiles.set unit (some p)
    privs := Function.update t.privs q (some (.sio (ioSio0 + 16 * unit)))
    sioFoClose := true }

theorem sioAttached_evolves (hq : t.privs q ≠ none) (unit p : Nat) :
    Evolves t (sioAttached unit p q t) [] := by
  refine Evolves.quiet ⟨Nat.le_refl _, fun _ _ h => h, ?_, Or.inl rfl⟩ rfl
  intro q' _ hnone
  have hne : q' ≠ q := by
    rintro rfl
    exact hq hnone
  simpa [sioAttached, hne] using hnone

theorem newFile_evolves_newPriv (v : Priv) (k : Kernel) :
    Evolves k (newFile (newPriv v k)) [] :=
  (newPriv_evolves v k).trans (newFile_evolves _)

theorem added_sio (h : Consistent k) (unit : Nat)
    (ht : Referred (newFile (newPriv (.sio 0) k)) t fd (k.next + 1) zeroFile) :
    Added k (storeFile (k.next + 1) (deviceFile .sio k.next 1)
        (sioAttached unit (k.next + 1) k.next t))
      (k.next + 1) k.next (deviceFile .sio k.next 1) (.sio (ioSio0 + 16 * unit)) := by
  have hnext : k.next + 2 ≤ t.next := ht.next
  obtain ⟨new, hev⟩ := ht.evolves
    (tableInv_of_eq (newPriv_table h.table (.sio 0)) rfl rfl (Nat.le_succ _))
    (by simp [newFile, newPriv])
  exact
    { files := by simp [storeFile, sioAttached, ht.files, newFile, newPriv]
      privs := by simp [storeFile, sioAttached, ht.privs, newFile, newPriv]
      file_range := ⟨Nat.le_succ _, hnext⟩
      priv_range := ⟨Nat.le_refl _, Nat.lt_of_succ_lt hnext⟩
      priv := rfl
      malloced := rfl
      refc := ⟨Nat.one_pos, by simp [deviceFile]⟩
      refs := ht.refs
      closing := fun _ => rfl
      ops := ⟨.sio, rfl, fun _ => ⟨rfl, _, rfl⟩⟩
      table := tableInv_of_eq ht.table rfl rfl (Nat.le_refl _)
      evolves := ⟨_, (((newFile_evolves_newPriv _ k).trans hev).trans
        (sioAttached_evolves (by simp [ht.privs, newFile, newPriv]) unit (k.next + 1))).trans
        (storeFile_evolves (by simp [sioAttached, ht.files]) _)⟩ }

theorem sioOpen_spec (h : Consistent k) (unit : Int) (sioOk fileOk tableOk : Bool) :
    (∃ e t, sioOpen unit sioOk fileOk tableOk k = .ok (.error e, t) ∧ Failed k t) ∨
    (∃ (fd : Int) (t : Kernel) (p q : Nat) (f : File) (v : Priv),
      sioOpen unit sioOk fileOk tableOk k = .ok (.ok fd, t) ∧ Added k t p q f v) := by
  unfold sioOpen
  split
  · exact Or.inl ⟨.einval, k, rfl, Failed.refl h.table⟩
  · cases sioOk with
    | false => exact Or.inl ⟨.einval, k, rfl, Failed.refl h.table⟩
    | true =>
        have hfresh := newPriv_fresh h.fresh (.sio 0)
        have htable := newPriv_table h.table (.sio 0)
        cases fileOk with
        | false =>
            refine Or.inl ⟨.enfile, _, ?_, failed_newPriv h.fresh (Failed.refl htable)⟩
            simp [allocPriv, callocFile, fdRef, bind, Except.bind, freeFile, freePriv, freedPriv,
              newPriv]
        | true =>
            rcases fdRef_newFile htable tableOk with href | ⟨fd, t, href, ht⟩
            · refine Or.inl ⟨.enfile, _, ?_, failed_newPriv h.fresh (failed_newFile hfresh htable)⟩
              simp only [allocPriv_true, callocFile_true, href, bind, Except.bind]
              simp [freeFile, freePriv, freedFile, freedPriv, newPriv, newFile]
            · have hfile : t.files (k.next + 1) = some { zeroFile with fRefc := 1 } := ht.file
              refine Or.inr ⟨fd, _, _, _, _, _, ?_, added_sio h unit.toNat ht⟩
              simp only [allocPriv_true, callocFile_true, href, bind, Except.bind]
              simp [derefFile, hfile, newPriv, storeFile, sioAttached, deviceFile, zeroFile]

theorem added_pipe (h : Consistent k) {fd' : Nat}
    (ht : Referred (newFile (newPriv .pipe k)) t fd (k.next + 1) zeroFile)
    (hu : Referred t u fd' (k.next + 1) { zeroFile with fRefc := 1 }) :
    Added k (storeFile (k.next + 1) (deviceFile .pipe k.next 2) u)
      (k.next + 1) k.next (deviceFile .pipe k.next 2) .pipe := by
  have hnext : k.next + 2 ≤ t.next := ht.next
  have hnext' := hu.next
  obtain ⟨new, hev⟩ := ht.evolves
    (tableInv_of_eq (newPriv_table h.table .pipe) rfl rfl (Nat.le_succ _))
    (by simp [newFile, newPriv])
  obtain ⟨new', hev'⟩ := hu.evolves ht.table (by simp [ht.files])
  exact
    { files := by simp [storeFile, hu.files, ht.files, newFile, newPriv]
      privs := by simp [storeFile, hu.privs, ht.privs, newFile, newPriv]
      file_range := ⟨Nat.le_succ _, by simp only [storeFile]; omega⟩
      priv_range := ⟨Nat.le_refl _, by simp only [storeFile]; omega⟩
      priv := rfl
      malloced := rfl
      refc := ⟨by simp [deviceFile], by simp [deviceFile]⟩
      refs := by
        intro p'
        have h1 := hu.refs p'
        have h2 := ht.refs p'
        change refs u p' = refs k p' + _
        rw [h1, h2]
        change refs k p' + _ + _ = _
        by_cases hp : p' = k.next + 1 <;> simp [hp, deviceFile]
      closing := by
        intro hc
        exact (hu.sioFoClose.trans ht.sioFoClose).trans hc
      ops := ⟨.pipe, rfl, by simp⟩
      table := tableInv_of_eq hu.table rfl rfl (Nat.le_refl _)
      evolves := ⟨_, (((newFile_evolves_newPriv _ k).trans hev).trans hev').trans
        (storeFile_evolves (by simp [hu.files]) _)⟩ }

/--
One of the two references of a pipe succeeds and the other one fails: `pipe`
frees the file while a slot still refers to it.
-/
def pipeHalfway (pipeOk fileOk table0Ok table1Ok : Bool) (k : Kernel) : Bool :=
  pipeOk && fileOk &&
    ((k.slots.count none == 0 && !table0Ok && table1Ok) ||
      (k.slots.count none == 1 && !table1Ok))

/-- After the first reference there is a free slot, unless it took the only one. -/
theorem Referred.free (h : Referred k t fd p f) (hk : TableInv k)
    (hone : k.slots.count none ≠ 1) : none ∈ t.slots := by
  obtain ⟨n, hn, hget, hsize⟩ := h.slots
  obtain ⟨hlt, hfree⟩ := List.getElem?_eq_some_iff.mp hget
  have hlen := hk.size
  have hpos : 0 < (k.slots ++ List.replicate n none).count none :=
    List.count_pos_iff.mpr (List.mem_of_getElem? hget)
  rw [← List.count_pos_iff, hn, List.count_set hlt, hfree]
  rw [List.count_append, List.count_replicate_self] at hpos ⊢
  simp
  omega

theorem pipe_spec (h : Consistent k) (pipeOk fileOk table0Ok table1Ok : Bool)
    (hslip : pipeHalfway pipeOk fileOk table0Ok table1Ok k = false) :
    (∃ e t, pipe pipeOk fileOk table0Ok table1Ok k = .ok (.error e, t) ∧ Failed k t) ∨
    (∃ (fd : Int) (t : Kernel) (p q : Nat) (f : File) (v : Priv),
      pipe pipeOk fileOk table0Ok table1Ok k = .ok (.ok fd, t) ∧ Added k t p q f v) := by
  unfold pipe
  cases pipeOk with
  | false => exact Or.inl ⟨.enomem, k, rfl, Failed.refl h.table⟩
  | true =>
      have hfresh := newPriv_fresh h.fresh .pipe
      have htable := newPriv_table h.table .pipe
      cases fileOk with
      | false =>
          refine Or.inl ⟨.enfile, _, ?_, failed_newPriv h.fresh (Failed.refl htable)⟩
          simp [allocPriv, callocFile, fdRef, bind, Except.bind, freeFile, freePriv, freedPriv,
            newPriv]
      | true =>
          have hnew : (newFile (newPriv .pipe k)).files (newPriv .pipe k).next = some zeroFile := by
            simp [newFile]
          have htable' : TableInv (newFile (newPriv .pipe k)) :=
            tableInv_of_eq htable rfl rfl (Nat.le_succ _)
          rcases fdRef_spec htable' hnew table0Ok with ⟨hfull, h0, href⟩ | ⟨hfree, fd, t, href, ht⟩
          · -- the table is full and cannot grow, and then neither can the second reference
            have hzero : k.slots.count none = 0 := List.count_eq_zero.mpr hfull
            have h1 : table1Ok = false := by
              by_contra h1
              simp [pipeHalfway, hzero, h0, h1] at hslip
            rw [h0] at href
            refine Or.inl ⟨.enfile, _, ?_, failed_newPriv h.fresh (failed_newFile hfresh htable)⟩
            simp only [allocPriv_true, callocFile_true, h0, h1, href, bind, Except.bind]
            simp [freeFile, freePriv, freedFile, freedPriv, newPriv, newFile]
          · have hfile : t.files (newPriv .pipe k).next = some { zeroFile with fRefc := 1 } := ht.file
            rcases fdRef_spec ht.table hfile table1Ok with ⟨hfull, h1, -⟩ | ⟨-, fd', u, href', hu⟩
            · exfalso
              have hone : k.slots.count none = 1 := by
                by_contra hone
                exact hfull (ht.free htable' hone)
              simp [pipeHalfway, hone, h1] at hslip
            · have hfile' : u.files (newPriv .pipe k).next = some { zeroFile with fRefc := 2 } :=
                hu.file
              refine Or.inr ⟨0, _, _, _, _, _, ?_, added_pipe h ht hu⟩
              simp only [allocPriv_true, callocFile_true, href, href', bind, Except.bind,
                derefFile_eq hfile']
              simp [newPriv, deviceFile]

end Devices

end Files
end F32c
