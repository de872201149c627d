import F32c.Files.Opens

/-!
# Closing descriptors

`close` takes one reference away.  With the last reference to a file from the
heap it calls `fo_close`, then frees the private data and the file, whatever
`fo_close` answers.

The last theorem puts the calls together: in every run the table stays
consistent, files are freed once and with their last descriptor, and a call that
fails changes neither descriptors nor reference counts.  Two kinds of calls are
left out of the runs: a `pipe` that gets only one of its two descriptors, and
the `close` of the last descriptor of a pipe.
-/

namespace F32c
namespace Files

section Close

variable {k t : Kernel} {p q fd : Nat} {f : File}

theorem fd2fp_ok {n : Int} (h : fd2fp n k = .ok p) : k.slots[n.toNat]? = some (some p) := by
  unfold fd2fp at h
  split at h
  · cases h
  · split at h
    · cases h
      assumption
    · cases h

/-- `close` took one of the references away and the file stays. -/
structure Dropped (k t : Kernel) (fd p : Nat) (f : File) : Prop where
  slot : k.slots[fd]? = some (some p)
  file : k.files p = some f
  stays : f.fileMalloced = true → 1 < f.fRefc
  files : t.files = Function.update k.files p (some { f with fRefc := f.fRefc - 1 })
  privs : t.privs = k.privs
  slots : t.slots = k.slots.set fd none
  next : t.next = k.next
  tsFiles : t.tsFiles = k.tsFiles
  sioFoClose : t.sioFoClose = k.sioFoClose
  events : t.events = k.events

/-- `close` took the last reference away and freed the file with its private data. -/
structure Released (k t : Kernel) (fd p q : Nat) (f : File) (o : Fileops) : Prop where
  slot : k.slots[fd]? = some (some p)
  file : k.files p = some f
  last : f.fRefc = 1
  malloced : f.fileMalloced = true
  priv : f.fPriv = some q
  ops : f.fOps = some o
  files : t.files = Function.update k.files p none
  privs : t.privs = Function.update k.privs q none
  slots : t.slots = k.slots.set fd none
  next : t.next = k.next
  tsFiles : t.tsFiles = k.tsFiles
  sioFoClose : t.sioFoClose = k.sioFoClose
  events : t.events = k.events ++ [.foClose p o, .freePriv q, .freeFile p]

theorem refs_cleared (h : k.slots[fd]? = some (some p)) (hs : t.slots = k.slots.set fd none)
    (p' : Nat) : refs t p' + (if p' = p then 1 else 0) = refs k p' := by
  rw [refs, refs, hs]
  exact count_set_none h p'

theorem Consistent.lt_next (h : Consistent k) (hp : k.files p ≠ none) : p < k.next := by
  by_contra hge
  exact hp (h.fresh p (by omega)).1

theorem Dropped.evolves (h : Dropped k t fd p f) : Evolves k t [] := by
  refine Evolves.quiet ⟨by rw [h.next], ?_, ?_, Or.inl h.tsFiles⟩ h.events
  · intro p' _ hnone
    have hne : p' ≠ p := by
      rintro rfl
      rw [h.file] at hnone
      cases hnone
    rw [h.files, Function.update_of_ne hne]
    exact hnone
  · intro q _ hq
    rw [h.privs]
    exact hq

theorem consistent_of_dropped (h : Consistent k) (hd : Dropped k t fd p f) : Consistent t := by
  have hrefs := refs_cleared hd.slot hd.slots
  have hself : t.files p = some { f with fRefc := f.fRefc - 1 } := by
    rw [hd.files, Function.update_self]
  have hother : ∀ p', p' ≠ p → t.files p' = k.files p' := by
    intro p' hne
    rw [hd.files, Function.update_of_ne hne]
  have hsame : ∀ p', p' ≠ p → refs t p' = refs k p' := by
    intro p' hne
    have := hrefs p'
    rw [if_neg hne] at this
    exact this
  have hcount := h.refc p f hd.file
  have hrefsp := hrefs p
  rw [if_pos rfl] at hrefsp
  obtain ⟨hgone, honce⟩ := hd.evolves.record h.gone h.once
  exact
    { live := by
        intro p' hp'
        by_cases hne : p' = p
        · rw [hne, hself]
          simp
        · rw [hother p' hne]
          rw [mem_slots_iff, hsame p' hne, ← mem_slots_iff] at hp'
          exact h.live p' hp'
      refc := by
        intro p' f' hp'
        by_cases hne : p' = p
        · subst hne
          rw [hself] at hp'
          cases hp'
          simp only
          omega
        · rw [hother p' hne] at hp'
          rw [hsame p' hne]
          exact h.refc p' f' hp'
      few := by
        intro p'
        have h1 := hrefs p'
        have h2 := h.few p'
        omega
      held := by
        intro p' f' hp' hm
        rw [mem_slots_iff]
        by_cases hne : p' = p
        · subst hne
          rw [hself] at hp'
          cases hp'
          have := hd.stays hm
          omega
        · rw [hother p' hne] at hp'
          rw [hsame p' hne, ← mem_slots_iff]
          exact h.held p' f' hp' hm
      owned := by
        intro p' f' hp'
        rw [hd.privs, hd.sioFoClose]
        by_cases hne : p' = p
        · subst hne
          rw [hself] at hp'
          cases hp'
          exact h.owned p' f hd.file
        · rw [hother p' hne] at hp'
          exact h.owned p' f' hp'
      alone := by
        have hback : ∀ p' f', t.files p' = some f' →
            ∃ g, k.files p' = some g ∧ g.fPriv = f'.fPriv := by
          intro p' f' hp'
          by_cases hne : p' = p
          · subst hne
            rw [hself] at hp'
            cases hp'
            exact ⟨f, hd.file, rfl⟩
          · rw [hother p' hne] at hp'
            exact ⟨f', hp', rfl⟩
        intro p1 p2 f1 f2 h1 h2 heq
        obtain ⟨g1, hg1, he1⟩ := hback p1 f1 h1
        obtain ⟨g2, hg2, he2⟩ := hback p2 f2 h2
        exact h.alone p1 p2 g1 g2 hg1 hg2 (by rw [he1, he2, heq])
      fresh := by
        intro p' hp'
        rw [hd.next] at hp'
        have hlt := h.lt_next (p := p) (by rw [hd.file]; simp)
        rw [hother p' (by omega), hd.privs]
        exact h.fresh p' hp'
      table := tableInv_of_eq h.table (by rw [hd.slots, List.length_set]) hd.tsFiles
        (by rw [hd.next])
      gone := hgone
      once := honce }

theorem Released.evolves {o : Fileops} (h : Consistent k) (hr : Released k t fd p q f o) :
    Evolves k t [.foClose p o, .freePriv q, .freeFile p] := by
  obtain ⟨-, q', v, -, hq', hv, -⟩ := h.owned p f hr.file
  have heq : q' = q := by
    rw [hr.priv] at hq'
    cases hq'
    rfl
  subst heq
  have hp : k.files p ≠ none := by rw [hr.file]; simp
  have hq : q' < k.next := by
    by_contra hge
    rw [(h.fresh q' (by omega)).2] at hv
    cases hv
  refine ⟨⟨by rw [hr.next], ?_, ?_, Or.inl hr.tsFiles⟩, hr.events, ?_, ?_, ?_⟩
  · intro p' _ hnone
    rw [hr.files]
    by_cases hne : p' = p
    · rw [hne, Function.update_self]
    · rw [Function.update_of_ne hne]
      exact hnone
  · intro p' _ hnone
    rw [hr.privs]
    by_cases hne : p' = q'
    · rw [hne, Function.update_self]
    · rw [Function.update_of_ne hne]
      exact hnone
  · intro e he
    simp only [List.mem_cons, List.not_mem_nil, or_false] at he
    rcases he with rfl | rfl | rfl
    · trivial
    · exact ⟨by rw [hr.next]; exact hq, by rw [hr.privs, Function.update_self]⟩
    · exact ⟨by rw [hr.next]; exact h.lt_next hp, by rw [hr.files, Function.update_self]⟩
  · intro e he hfree hg
    simp only [List.mem_cons, List.not_mem_nil, or_false] at he
    rcases he with rfl | rfl | rfl
    · cases hfree
    · rw [hg.2] at hv
      cases hv
    · exact hp hg.2
  · change [Event.freePriv q', Event.freeFile p].Nodup
    simp

theorem consistent_of_released {o : Fileops} (h : Consistent k)
    (hr : Released k t fd p q f o) : Consistent t := by
  have hrefs := refs_cleared hr.slot hr.slots
  have hother : ∀ p' f', t.files p' = some f' → p' ≠ p ∧ k.files p' = some f' := by
    intro p' f' hp'
    rw [hr.files] at hp'
    by_cases hne : p' = p
    · rw [hne, Function.update_self] at hp'
      cases hp'
    · rw [Function.update_of_ne hne] at hp'
      exact ⟨hne, hp'⟩
  have hsame : ∀ p', p' ≠ p → refs t p' = refs k p' := by
    intro p' hne
    have := hrefs p'
    rw [if_neg hne] at this
    exact this
  have hrefsp : refs t p = 0 := by
    have h1 := hrefs p
    have h2 := h.refc p f hr.file
    have h3 := hr.last
    rw [if_pos rfl] at h1
    omega
  obtain ⟨hgone, honce⟩ := (hr.evolves h).record h.gone h.once
  exact
    { live := by
        intro p' hp'
        have hne : p' ≠ p := by
          rintro rfl
          rw [mem_slots_iff, hrefsp] at hp'
          exact Nat.lt_irrefl _ hp'
        rw [hr.files, Function.update_of_ne hne]
        rw [mem_slots_iff, hsame p' hne, ← mem_slots_iff] at hp'
        exact h.live p' hp'
      refc := by
        intro p' f' hp'
        obtain ⟨hne, hk⟩ := hother p' f' hp'
        rw [hsame p' hne]
        exact h.refc p' f' hk
      few := by
        intro p'
        have h1 := hrefs p'
        have h2 := h.few p'
        omega
      held := by
        intro p' f' hp' hm
        obtain ⟨hne, hk⟩ := hother p' f' hp'
        rw [mem_slots_iff, hsame p' hne, ← mem_slots_iff]
        exact h.held p' f' hk hm
      owned := by
        intro p' f' hp'
        obtain ⟨hne, hk⟩ := hother p' f' hp'
        obtain ⟨o', q', v', ho', hq', hv', hsio⟩ := h.owned p' f' hk
        have hqne : q' ≠ q := by
          rintro rfl
          exact hne (h.alone p' p f' f hk hr.file (by rw [hq', hr.priv]))
        exact ⟨o', q', v', ho', hq', by rw [hr.privs, Function.update_of_ne hqne]; exact hv',
          by rw [hr.sioFoClose]; exact hsio⟩
      alone := by
        intro p1 p2 f1 f2 h1 h2 heq
        exact h.alone p1 p2 f1 f2 (hother p1 f1 h1).2 (hother p2 f2 h2).2 heq
      fresh := by
        intro p' hp'
        rw [hr.next] at hp'
        have hk := h.fresh p' hp'
        rw [hr.files, hr.privs]
        refine ⟨?_, ?_⟩
        · by_cases hne : p' = p
          · rw [hne, Function.update_self]
          · rw [Function.update_of_ne hne]
            exact hk.1
        · by_cases hne : p' = q
          · rw [hne, Function.update_self]
          · rw [Function.update_of_ne hne]
            exact hk.2
      table := tableInv_of_eq h.table (by rw [hr.slots, List.length_set]) hr.tsFiles
        (by rw [hr.next])
      gone := hgone
      once := honce }

/-- The file whose last slot a call closes, when the file is from the heap. -/
def closesLast (call : Call) (k : Kernel) : Option Nat :=
  match call with
  | .close fd _ =>
      match fd2fp fd k with
      | .error _ => none
      | .ok p =>
          match k.files p with
          | none => none
          | some f => if f.fileMalloced && f.fRefc == 1 then some p else none
  | _ => none

/-- The state after the last descriptor of a file was closed. -/
def releasedState (sioFiles : List (Option Nat)) (fd p q : Nat) (o : Fileops) (k : Kernel) :
    Kernel :=
  { k with
    files := Function.update k.files p none
    privs := Function.update k.privs q none
    slots := k.slots.set fd none
    sioFiles := sioFiles
    events := k.events ++ [.foClose p o, .freePriv q, .freeFile p] }

/-- `close` on a consistent table, the last descriptor of a pipe left out. -/
theorem close_spec (h : Consistent k) (n : Int) (res : FResult)
    (hpipe : ∀ p f, closesLast (.close n res) k = some p → k.files p = some f →
      f.fOps ≠ some .pipe) :
    (∃ e, close n res k = .ok (.error e, k) ∧ closesLast (.close n res) k = none) ∨
    (∃ t fd p f, close n res k = .ok (.ok 0, t) ∧ closesLast (.close n res) k = none ∧
      Dropped k t fd p f) ∨
    (∃ r t fd p q f o, close n res k = .ok (r, t) ∧ closesLast (.close n res) k = some p ∧
      Released k t fd p q f o) := by
  cases hfd : fd2fp n k with
  | error e =>
      exact Or.inl ⟨e, by simp [close, hfd], by simp [closesLast, hfd]⟩
  | ok p =>
      have hslot := fd2fp_ok hfd
      have hmem : some p ∈ k.slots := List.mem_of_getElem? hslot
      obtain ⟨f, hfile⟩ := Option.ne_none_iff_exists'.mp (h.live p hmem)
      have hcount := h.refc p f hfile
      have hpos := mem_slots_iff.mp hmem
      have hfew := h.few p
      have hdec : (f.fRefc + (2 ^ 16 - 1)) % 2 ^ 16 = f.fRefc - 1 := by omega
      by_cases hlast : f.fileMalloced = true ∧ f.fRefc = 1
      · have hcloses : closesLast (.close n res) k = some p := by
          simp [closesLast, hfd, hfile, hlast]
        obtain ⟨o, q, v, ho, hq, hv, hsio⟩ := h.owned p f hfile
        have hreleased : ∀ sf, Released k (releasedState sf n.toNat p q o k) n.toNat p q f o :=
          fun _ => ⟨hslot, hfile, hlast.2, hlast.1, hq, ho, rfl, rfl, rfl, rfl, rfl, rfl, rfl⟩
        refine Or.inr (Or.inr ?_)
        cases o with
        | pipe => exact absurd ho (hpipe p f hcloses hfile)
        | ff =>
            refine ⟨(ffres2errno res).map (fun _ => 0), _, _, _, _, _, _, ?_, hcloses,
              hreleased k.sioFiles⟩
            simp [close, hfd, derefFile, hfile, bind, Except.bind, storeFile, hlast, foClose, ho, hq,
              freePriv, hv, freeFile, releasedState]
        | sio =>
            obtain ⟨hclose, port, rfl⟩ := hsio rfl
            refine ⟨.ok 0, _, _, _, _, _, _, ?_, hcloses,
              hreleased (k.sioFiles.set ((port - ioSio0) / 16) none)⟩
            simp [close, hfd, derefFile, hfile, bind, Except.bind, storeFile, hlast, foClose, ho, hq,
              freePriv, hv, freeFile, releasedState, hclose hlast.1, sioClose, sioState, Except.map]
      · have hcloses : closesLast (.close n res) k = none := by
          simp [closesLast, hfd, hfile, hlast]
        have hstays : f.fileMalloced = true → 1 < f.fRefc := by
          intro hm
          have hne : f.fRefc ≠ 1 := fun he => hlast ⟨hm, he⟩
          omega
        refine Or.inr (Or.inl ⟨storeFile p { f with fRefc := f.fRefc - 1 }
          { k with slots := k.slots.set n.toNat none }, n.toNat, p, f, ?_, hcloses,
          ⟨hslot, hfile, hstays, rfl, rfl, rfl, rfl, rfl, rfl, rfl⟩⟩)
        cases hm : f.fileMalloced with
        | false =>
            simp only [close, hfd, derefFile, hfile, bind, Except.bind, storeFile, hdec, hm]
            split <;> rfl
        | true =>
            have hne : f.fRefc - 1 ≠ 0 := by
              have := hstays hm
              omega
            simp only [close, hfd, derefFile, hfile, bind, Except.bind, storeFile, hdec, hm,
              if_pos hne]

/-- The last descriptor of a pipe is closed through a NULL `fo_close`. -/
theorem close_pipe_faults {n : Int} {res : FResult}
    (hlast : closesLast (.close n res) k = some p) (hfile : k.files p = some f)
    (ho : f.fOps = some .pipe) : close n res k = .error .nullCall := by
  unfold closesLast at hlast
  cases hfd : fd2fp n k with
  | error e => simp [hfd] at hlast
  | ok p' =>
      have hp : p' = p ∧ f.fileMalloced = true ∧ f.fRefc = 1 := by
        simp only [hfd] at hlast
        cases hf : k.files p' with
        | none => simp [hf] at hlast
        | some f' =>
            simp [hf] at hlast
            obtain ⟨hm, rfl⟩ := hlast
            rw [hf] at hfile
            cases hfile
            exact ⟨rfl, hm⟩
      obtain ⟨rfl, hm, hone⟩ := hp
      simp [close, hfd, derefFile, hfile, bind, Except.bind, hm, hone, foClose, ho]

end Close

section Runs

variable {k t : Kernel} {p q : Nat} {f : File} {v : Priv} {call : Call}

/-- The calls the result is about. -/
def Covered (call : Call) (k : Kernel) : Prop :=
  match call with
  | .pipe pipeOk fileOk table0Ok table1Ok =>
      pipeHalfway pipeOk fileOk table0Ok table1Ok k = false
  | .close _ _ =>
      ∀ p f, closesLast call k = some p → k.files p = some f → f.fOps ≠ some .pipe
  | _ => True

/-- The states a program can bring `task0` into. -/
inductive Reach : Kernel → Prop where
  | boot : Reach boot
  | exec {k t : Kernel} {r : Except Errno Int} (call : Call) (hk : Reach k)
      (hc : Covered call k) (he : call.exec k = .ok (r, t)) : Reach t

/-- What a call does to files, descriptors and reference counts. -/
structure Accounted (call : Call) (k : Kernel) (r : Except Errno Int) (t : Kernel)
    (new : List Event) : Prop where
  events : t.events = k.events ++ new
  last : ∀ p, closesLast call k = some p → some p ∉ t.slots ∧ ∃ f o q,
    k.files p = some f ∧ f.fOps = some o ∧ f.fPriv = some q ∧
      new = [.foClose p o, .freePriv q, .freeFile p]
  kept : closesLast call k = none → ∀ p, p < k.next → .freeFile p ∉ new ∧ .freePriv p ∉ new
  error : closesLast call k = none → ∀ e, r = .error e →
    occupied t = occupied k ∧ refcs t = refcs k

theorem accounted_of_failed (hf : Failed k t) (hnone : closesLast call k = none)
    (r : Except Errno Int) : ∃ new, Accounted call k r t new := by
  obtain ⟨new, hev⟩ := hf.evolves
  refine ⟨new, hev.events, by simp [hnone], ?_, ?_⟩
  · intro _
    refine hev.not_freed ?_ ?_
    · intro p _ hp
      rwa [hf.files]
    · intro q _ hq
      rwa [hf.privs]
  · intro _ _ _
    refine ⟨hf.occupied, ?_⟩
    funext p
    rw [refcs, refcs, hf.files]

theorem accounted_of_added (ha : Added k t p q f v) (hnone : closesLast call k = none)
    (r : Int) : ∃ new, Accounted call k (.ok r) t new := by
  obtain ⟨new, hev⟩ := ha.evolves
  refine ⟨new, hev.events, by simp [hnone], ?_, by simp⟩
  intro _
  refine hev.not_freed ?_ ?_
  · intro p' _ hp'
    by_cases hne : p' = p
    · simp [ha.files, hne]
    · simpa [ha.files, hne] using hp'
  · intro q' _ hq'
    by_cases hne : q' = q
    · simp [ha.privs, hne]
    · simpa [ha.privs, hne] using hq'

/-- One call: no fault, the invariant is kept, and every effect is accounted for. -/
theorem exec_consistent (h : Consistent k) (hc : Covered call k) :
    ∃ r t new, call.exec k = .ok (r, t) ∧ Consistent t ∧ Accounted call k r t new := by
  have hopened : ∀ {x : Except Fault (Except Errno Int × Kernel)},
      closesLast call k = none →
      ((∃ e t, x = .ok (.error e, t) ∧ Failed k t) ∨
        (∃ (fd : Int) (t : Kernel) (p q : Nat) (f : File) (v : Priv),
          x = .ok (.ok fd, t) ∧ Added k t p q f v)) →
      ∃ r t new, x = .ok (r, t) ∧ Consistent t ∧ Accounted call k r t new := by
    rintro x hnone (⟨e, t, hx, hf⟩ | ⟨fd, t, p, q, f, v, hx, ha⟩)
    · obtain ⟨new, hacc⟩ := accounted_of_failed hf hnone (.error e)
      exact ⟨_, t, new, hx, consistent_of_failed h hf, hacc⟩
    · obtain ⟨new, hacc⟩ := accounted_of_added ha hnone fd
      exact ⟨_, t, new, hx, consistent_of_added h ha, hacc⟩
  cases call with
  | openFile fileOk tableOk filOk res =>
      exact hopened rfl (openFile_spec h fileOk tableOk filOk res)
  | pipe pipeOk fileOk table0Ok table1Ok =>
      exact hopened rfl (pipe_spec h pipeOk fileOk table0Ok table1Ok hc)
  | sioOpen unit sioOk fileOk tableOk =>
      exact hopened rfl (sioOpen_spec h unit sioOk fileOk tableOk)
  | close n res =>
      rcases close_spec h n res hc with ⟨e, hx, hnone⟩ | ⟨t, fd, p, f, hx, hnone, hd⟩ |
          ⟨r, t, fd, p, q, f, o, hx, hlast, hr⟩
      · obtain ⟨new, hacc⟩ := accounted_of_failed (Failed.refl h.table) hnone (.error e)
        exact ⟨_, k, new, hx, h, hacc⟩
      · refine ⟨_, t, [], hx, consistent_of_dropped h hd, ?_⟩
        exact ⟨by simp [hd.events], by simp [hnone], by simp, by simp⟩
      · have hcons := consistent_of_released h hr
        refine ⟨r, t, _, hx, hcons, hr.events, ?_, by simp [hlast], by simp [hlast]⟩
        intro p' hp'
        rw [hlast] at hp'
        cases hp'
        refine ⟨?_, f, o, q, hr.file, hr.ops, hr.priv, rfl⟩
        intro hmem
        exact hcons.live p hmem (by rw [hr.files, Function.update_self])

theorem boot_files {p : Nat} {f : File} (h : boot.files p = some f) :
    p = 0 ∧ f = { fOps := some .sio, fPriv := some 1, fileMalloced := false, fRefc := 3 } := by
  by_cases hp : p = 0
  · subst hp
    simp [boot, sio0File, sio0State] at h
    exact ⟨rfl, h.symm⟩
  · simp [boot, sio0File, hp] at h

theorem boot_consistent : Consistent boot where
  live := by
    intro p hp
    simp [boot, sio0File] at hp
    simp [boot, hp, sio0File]
  refc := by
    intro p f hf
    obtain ⟨rfl, rfl⟩ := boot_files hf
    rfl
  few := by
    intro p
    exact List.count_le_length
  held := by
    intro p f hf hm
    obtain ⟨rfl, rfl⟩ := boot_files hf
    cases hm
  owned := by
    intro p f hf
    obtain ⟨rfl, rfl⟩ := boot_files hf
    exact ⟨.sio, 1, .sio ioSio0, rfl, rfl, rfl, fun _ => ⟨by simp, ioSio0, rfl⟩⟩
  alone := by
    intro p p' f f' hf hf' _
    rw [(boot_files hf).1, (boot_files hf').1]
  fresh := by
    intro p hp
    have hp' : 2 ≤ p := hp
    simp only [boot, sio0File, sio0State]
    rw [Function.update_of_ne (by omega), Function.update_of_ne (by omega)]
    exact ⟨rfl, rfl⟩
  table := ⟨by decide, by decide, by simp [boot]⟩
  gone := by simp [boot]
  once := by simp [boot]

theorem consistent_of_reach (h : Reach k) : Consistent k := by
  induction h with
  | boot => exact boot_consistent
  | exec call _ hc he ih =>
      obtain ⟨r, t, new, hx, hcons, -⟩ := exec_consistent ih hc
      rw [he] at hx
      cases hx
      exact hcons

end Runs

end Files
end F32c
