import OsSecurity.Lemmas.Represents

/-!
# The disk as databases, a log, and files apart

Where no filename denotes a database or the log, a run on the disk is one on a system, in which these are no files: every call answers as
it does there, whatever fails, and the disk holds what the system says. What is proved of systems, and of the worlds in them, is so proved
of the files on disk.
-/

namespace OsSecurity.Fms

open CLib

namespace DiskRefinementAux

variable {Obj : Type*} [DecidableEq Obj] {paths : Paths Obj} {base : List UInt8} {d : Disk Obj} {sys : System Obj}

/-- One call, of either kind, does to the disk what it does to the system. -/
theorem step_refines (h : Represents paths base d sys) (s : Io × (AuthOp ⊕ Call))
    (hname : ∀ c, s.2 = .inr c → ¬paths.Reserved (paths.storage c.filename)) :
    Represents paths base ((diskCalls paths).step d s).1 ((systemCalls paths.resolve).step sys s).1 ∧
      ((diskCalls paths).step d s).2 = ((systemCalls paths.resolve).step sys s).2 := by
  obtain ⟨io, op | c⟩ := s
  · obtain ⟨hreply, hnext⟩ := h.authExec io op
    exact ⟨hnext, congrArg Sum.inl hreply⟩
  · obtain ⟨hreply, hnext⟩ := h.exec io (hname c rfl)
    exact ⟨hnext, congrArg Sum.inr hreply⟩

end DiskRefinementAux

/-- Every run of registrations, logins and calls on files whose names denote no database and not the log, from a disk that stands for a
system and whatever the operating system answers: the calls answer as they do on the system, and the disk they leave stands for the
system they leave. -/
theorem disk_refines_system {Obj : Type*} [DecidableEq Obj] (paths : Paths Obj) {base : List UInt8} {d : Disk Obj} {sys : System Obj}
    (h : Represents paths base d sys) (steps : List (Io × (AuthOp ⊕ Call)))
    (hnames : ∀ s ∈ steps, ∀ c, s.2 = .inr c → ¬paths.Reserved (paths.storage c.filename)) :
    Runs.trace (diskCalls paths).step d steps = Runs.trace (systemCalls paths.resolve).step sys steps ∧
      Represents paths base (Runs.final (diskCalls paths).step d steps) (Runs.final (systemCalls paths.resolve).step sys steps) := by
  have hstep : ∀ (d : Disk Obj) (sys : System Obj) s, (∀ c, s.2 = .inr c → ¬paths.Reserved (paths.storage c.filename)) →
      Represents paths base d sys →
        Represents paths base ((diskCalls paths).step d s).1 ((systemCalls paths.resolve).step sys (id s)).1 ∧
          id ((diskCalls paths).step d s).2 = ((systemCalls paths.resolve).step sys (id s)).2 :=
    fun d sys s hname hrep => DiskRefinementAux.step_refines hrep s hname
  obtain ⟨hlast, htrace⟩ := Runs.simulation id id hstep h hnames
  rw [List.map_id] at hlast htrace
  exact ⟨(List.map_id _).symm.trans htrace, hlast⟩

/-- Ann registers, logs in and creates a file; the disk is full when she writes to it. -/
def annSteps : List (Io × (AuthOp ⊕ Call)) :=
  [(Io.allOk [], .inl (.register (some (cstring "ann")) (some (cstring "pw")) (some (cstring "staff")) (CharArray.zero saltLen))),
    (Io.allOk [], .inl (.login (cstring "ann") (cstring "pw"))),
    (Io.allOk [], .inr (.of "ann" "staff" "notes" (.create (some (cstring "rw-------")) (cstring "hello")))),
    ({ ok := fun s => s != .storageOpen, timestr := [] }, .inr (.of "ann" "staff" "notes" (.write none (cstring "bye") false)))]

/-- Her calls are answered as on a system. -/
theorem disk_refines_system_ann :
    Runs.trace (diskCalls srv).step Disk.empty annSteps = Runs.trace (systemCalls srv.resolve).step System.empty annSteps ∧
      Represents srv [] (Runs.final (diskCalls srv).step Disk.empty annSteps)
        (Runs.final (systemCalls srv.resolve).step System.empty annSteps) := by
  refine disk_refines_system srv Represents.empty annSteps ?_
  simp only [annSteps, List.mem_cons, List.not_mem_nil, or_false, forall_eq_or_imp, forall_eq, Sum.inr.injEq, reduceCtorEq,
    false_imp_iff, implies_true, true_and]
  exact ⟨by rintro c rfl; decide +kernel, by rintro c rfl; decide +kernel⟩

end OsSecurity.Fms
