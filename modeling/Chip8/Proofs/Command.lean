import Chip8.Command.Run
import Chip8.Proofs.Basic

/-!
# Commands on a disk

A command may fail and may write. On a disk it gives a result or a failure, and the disk that it leaves
behind; one step after the other, until the first that fails (`Disk.perform_bind`). Loading a program,
listing a range of it and looking at its first words only read.
-/

namespace Chip8

/-! ## Steps -/

namespace Disk

variable {α β : Type} {d : Disk}

/-- What a computation with files gives on a disk, and the disk that it leaves behind. -/
def perform (d : Disk) (x : ExceptT Failure (StateM Disk) α) : Except Failure α × Disk :=
  x.run.run d

/-- **The first failure ends a computation.** -/
@[simp]
theorem perform_bind (d : Disk) (x : ExceptT Failure (StateM Disk) α)
    (f : α → ExceptT Failure (StateM Disk) β) :
    d.perform (x >>= f) =
      match d.perform x with
      | (.ok a, d') => d'.perform (f a)
      | (.error e, d') => (.error e, d') := by
  show (ExceptT.bindCont f (d.perform x).1).run (d.perform x).2 = _
  rcases d.perform x with ⟨e | a, d'⟩ <;> rfl

theorem perform_bind_of_ok {x : ExceptT Failure (StateM Disk) α} {a : α}
    (f : α → ExceptT Failure (StateM Disk) β) (h : d.perform x = (.ok a, d)) :
    d.perform (x >>= f) = d.perform (f a) := by
  rw [perform_bind, h]

@[simp]
theorem perform_orFail {ε : Type} (d : Disk) (failure : ε → Failure) (x : Except ε α) :
    d.perform (ProgramFile.orFail failure x) = (x.mapError failure, d) := rfl

/-- Reading a file leaves the disk as it is. -/
@[simp]
theorem perform_readFile (d : Disk) (path : String) :
    d.perform (ProgramFile.readFile path) = ((d.read path).mapError .file, d) := rfl

end Disk

/-- What a whole run comes to: the result of the command, or a failure without output. -/
def Result.conclude : Except Failure Result → Result
  | .ok result => result
  | .error failure => ⟨1, "", some failure⟩

theorem Invocation.run_eq (i : Invocation) (d : Disk) :
    (i.run : StateM Disk Result).run d =
      (.conclude (d.perform (i.command.execute i.file)).1,
        (d.perform (i.command.execute i.file)).2) := by
  rw [Invocation.run, StateT.run_bind, Disk.perform]
  rcases StateT.run (ExceptT.run (i.command.execute i.file)) d with ⟨e | a, d'⟩ <;> rfl

/-- A command that comes to a text prints it, and exits with 0. -/
theorem Invocation.run_of_text {file : ProgramFile} {command : Command}
    {x : ExceptT Failure (StateM Disk) String}
    (h : command.execute file = x >>= fun text => pure ⟨0, text, none⟩) (d : Disk) :
    (Invocation.run ⟨file, command⟩ : StateM Disk Result).run d =
      (.conclude ((d.perform x).1.map fun text => ⟨0, text, none⟩), (d.perform x).2) := by
  rw [Invocation.run_eq, h, Disk.perform_bind]
  rcases d.perform x with ⟨e | text, d'⟩ <;> rfl

namespace ProgramFile

variable {d : Disk} {file : ProgramFile} {content program : Bytes} {img : Image}

/-! ## Loading -/

/-- The bytes of the program, as they are on a disk. -/
def payload (file : ProgramFile) (d : Disk) : Except Failure Bytes := do
  let content ← (d.read file.path).mapError .file
  (file.cut.payload content).mapError (.load ∘ .cut)

theorem payload_eq_ok_iff :
    file.payload d = .ok program ↔
      ∃ content, d.read file.path = .ok content ∧ file.cut.payload content = .ok program := by
  simp only [payload, bind_eq_ok_iff, mapError_eq_ok_iff]

/-- Loading maps the bytes of the program. -/
theorem perform_image (d : Disk) (file : ProgramFile) :
    d.perform file.image =
      (file.payload d >>= fun program =>
        (Image.ofProgram program file.base).mapError (.load ∘ .misfit), d) := by
  rw [image, Disk.perform_bind, Disk.perform_readFile, payload]
  cases d.read file.path with
  | error e => rfl
  | ok content =>
    show ((Image.load content file.cut file.base).mapError Failure.load, d) =
      ((file.cut.payload content).mapError _ >>= _, d)
    simp only [Image.load, mapError_bind, mapError_mapError]

/-- A program is loaded if its file can be read, has such a part, and the part fits. -/
theorem perform_image_of_ofProgram (hpayload : file.payload d = .ok program)
    (himg : Image.ofProgram program file.base = .ok img) : d.perform file.image = (.ok img, d) := by
  rw [perform_image, hpayload]
  show ((Image.ofProgram program file.base).mapError _, d) = _
  rw [himg]
  rfl

/-! ## Looking at the first words -/

/-- What is said about a program, and with which exit code. -/
def verdict (file : ProgramFile) (limits : Probe.Limits) (program : Bytes) : Result :=
  match Probe.check limits program with
  | .ok () => ⟨0, file.path ++ ": CHIP-8\n", none⟩
  | .error why => ⟨1, file.path ++ ": not CHIP-8 (" ++ why.message ++ ")\n", none⟩

theorem verdict_exitCode_eq_zero_iff {limits : Probe.Limits} :
    (file.verdict limits program).exitCode = 0 ↔ Probe.check limits program = .ok () := by
  unfold verdict
  cases Probe.check limits program with
  | ok => simp
  | error why => simp

/-- Detection judges the bytes of the program. -/
theorem perform_detect (d : Disk) (file : ProgramFile) (limits : Probe.Limits) :
    d.perform (file.detect limits) = ((file.payload d).map (file.verdict limits), d) := by
  rw [detect, Disk.perform_bind, Disk.perform_readFile, payload]
  cases d.read file.path with
  | error e => rfl
  | ok content =>
    show d.perform (orFail _ (file.cut.payload content) >>= _) =
      (((file.cut.payload content).mapError _).map _, d)
    rw [Disk.perform_bind, Disk.perform_orFail]
    cases file.cut.payload content with
    | error e => rfl
    | ok program =>
      show d.perform (match Probe.check limits program with | .ok () => _ | .error why => _) =
        (.ok (file.verdict limits program), d)
      unfold verdict
      cases Probe.check limits program <;> rfl

/-! ## Listing a range -/

/-- The address from which a range is listed. -/
def start (img : Image) (request : RangeRequest) : Nat := (request.start.getD img.entry).toNat

/-- The end of a listed range. -/
def stop (img : Image) (request : RangeRequest) : Nat :=
  request.stop.elim (lastStop img) UInt16.toNat

/-- A range that does not end before it starts is printed, and nothing else happens. -/
theorem run_range {request : RangeRequest} (himage : d.perform file.image = (.ok img, d))
    (hle : start img request ≤ stop img request) (hout : request.out = none) :
    (Invocation.run ⟨file, .range request⟩ : StateM Disk Result).run d =
      (⟨0, Report.lines
        (img.rangeLines request.showBytes (start img request) (stop img request)), none⟩, d) := by
  have hlist : d.perform (file.list request) = (.ok (Report.lines
      (img.rangeLines request.showBytes (start img request) (stop img request))), d) := by
    rw [list, Disk.perform_bind_of_ok _ himage]
    show d.perform (if stop img request < start img request then _ else _) = _
    rw [if_neg (Nat.not_lt.mpr hle), hout]
    rfl
  rw [Invocation.run_of_text (x := file.list request) rfl, hlist]
  rfl

end ProgramFile

end Chip8
