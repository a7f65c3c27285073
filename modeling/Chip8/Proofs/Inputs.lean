import Chip8.Proofs.Loading
import Chip8.Proofs.Publication

/-!
# Inputs that cannot be used

A listing reads a program, and an analysis reads a program and may read labels. What can be wrong with them is
said here of the files alone (`ProgramFile.Unloadable`, `ProgramFile.EndsEarly`, `ProgramFile.Unlabelled`). It is
all found out before anything is written, so such a command leaves nothing behind but its exit code
(`ProgramFile.bad_input_leaves_no_trace`). Nothing else makes a command fail that can write its files.
-/

namespace Chip8

namespace Invocation

variable {α : Type} {d : Disk} {file : ProgramFile} {command : Command}
  {x : ExceptT Failure (StateM Disk) String} {found : Except Failure α}
  {write : α → ExceptT Failure (StateM Disk) String} {Bad : Prop}

/-- The invocation fails with exit code 1, prints nothing and leaves the disk as it is. -/
def LeavesNoTrace (i : Invocation) (d : Disk) : Prop :=
  ∃ failure, (i.run : StateM Disk Result).run d = (⟨1, "", some failure⟩, d)

/-- **A command that reads before it writes leaves no trace of what it cannot read.** -/
theorem leavesNoTrace_of_bad
    (h : command.execute file = x >>= fun text => pure ⟨0, text, none⟩)
    (hx : ∀ e, found = .error e → d.perform x = (.error e, d))
    (hfound : (∃ a, found = .ok a) ↔ ¬ Bad) (hbad : Bad) : LeavesNoTrace ⟨file, command⟩ d := by
  cases found with
  | ok a => exact absurd hbad (hfound.mp ⟨a, rfl⟩)
  | error e =>
    refine ⟨e, ?_⟩
    rw [run_of_text h, hx e rfl]
    rfl

/-- If it can read and write, it succeeds. -/
theorem exitCode_of_not_bad
    (h : command.execute file = x >>= fun text => pure ⟨0, text, none⟩)
    (hx : ∀ a, found = .ok a → d.perform x = d.perform (write a))
    (hfound : (∃ a, found = .ok a) ↔ ¬ Bad) (hgood : ¬ Bad)
    (hwrite : ∀ a, ∃ printed, (d.perform (write a)).1 = .ok printed) :
    ((run ⟨file, command⟩ : StateM Disk Result).run d).1.exitCode = 0 := by
  obtain ⟨a, ha⟩ := hfound.mpr hgood
  obtain ⟨printed, hprinted⟩ := hwrite a
  rw [run_of_text h, hx a ha]
  show (Result.conclude ((d.perform (write a)).1.map _)).exitCode = 0
  rw [hprinted]
  rfl

end Invocation

namespace ProgramFile

variable {d : Disk} {file : ProgramFile} {content : Bytes} {img : Image} {path : String}

/-! ## The program -/

/-- The file of the program cannot be read, or what is asked for of it is out of bounds. -/
inductive Unloadable (file : ProgramFile) (d : Disk) : Prop where
  | unreadable {e : FileFault} (h : d.read file.path = .error e)
  | skip {content : Bytes} (h : d.read file.path = .ok content)
      (hskip : content.size < file.cut.skip)
  | length {content : Bytes} {n : Nat} (h : d.read file.path = .ok content)
      (hn : file.cut.length = some n) (hlength : content.size - file.cut.skip < n)
  | base {content : Bytes} (h : d.read file.path = .ok content)
      (hbase : Machine.memorySize < file.base.toNat + file.cut.count content.size)

theorem loaded_of_read (h : d.read file.path = .ok content) :
    file.loaded d = (Image.load content file.cut file.base).mapError .load := by
  have himage : d.perform file.image =
      ((Image.load content file.cut file.base).mapError .load, d) := by
    rw [image, Disk.perform_bind, Disk.perform_readFile, h]
    rfl
  exact congrArg Prod.fst ((perform_image d file).symm.trans himage)

/-- **What is not unloadable is loaded.** -/
theorem exists_loaded_iff : (∃ img, file.loaded d = .ok img) ↔ ¬ file.Unloadable d := by
  cases hread : d.read file.path with
  | error e =>
    refine iff_of_false ?_ (not_not_intro (.unreadable hread))
    rintro ⟨img, himg⟩
    obtain ⟨program, hpayload, -⟩ := bind_eq_ok_iff.mp himg
    obtain ⟨content, hcontent, -⟩ := payload_eq_ok_iff.mp hpayload
    rw [hread] at hcontent
    cases hcontent
  | ok content =>
    rw [loaded_of_read hread]
    simp only [mapError_eq_ok_iff, Image.exists_load_iff]
    constructor
    · rintro ⟨hskip, hlength, hbase⟩ hbad
      cases hbad with
      | unreadable h =>
        rw [hread] at h
        cases h
      | skip h hlt | base h hlt =>
        cases hread.symm.trans h
        omega
      | length h hn hlt =>
        cases hread.symm.trans h
        have hle := hlength _ hn
        omega
    · intro hgood
      exact ⟨Nat.not_lt.mp fun h => hgood (.skip hread h),
        fun n hn => Nat.not_lt.mp fun h => hgood (.length hread hn h),
        Nat.not_lt.mp fun h => hgood (.base hread h)⟩

/-! ## The range -/

/-- The range ends before it starts. A bound that is not given is that of the program. -/
def EndsEarly (file : ProgramFile) (request : RangeRequest) (d : Disk) : Prop :=
  ∃ content, d.read file.path = .ok content ∧
    request.stop.elim (file.base.toNat + file.cut.count content.size) UInt16.toNat <
      (request.start.getD file.base).toNat

theorem start_stop_of_loaded (hread : d.read file.path = .ok content) (himg : file.loaded d = .ok img)
    (request : RangeRequest) :
    start img request = (request.start.getD file.base).toNat ∧
      stop img request =
        request.stop.elim (file.base.toNat + file.cut.count content.size) UInt16.toNat := by
  rw [loaded_of_read hread, mapError_eq_ok_iff] at himg
  have hsize := Image.size_of_load himg
  obtain ⟨-, rfl⟩ := Image.load_eq_ok_iff.mp himg
  have hstop : lastStop ⟨[⟨"ROM Data", file.base, content.extract file.cut.skip
      (file.cut.skip + file.cut.count content.size), .all⟩], file.base⟩ =
        file.base.toNat + file.cut.count content.size := by
    simp [lastStop, Segment.stop, hsize]
  refine ⟨rfl, ?_⟩
  rw [stop, hstop]

/-- The lines of a range, from what is read on a disk. -/
def listing (file : ProgramFile) (request : RangeRequest) (d : Disk) : Except Failure String := do
  let img ← file.loaded d
  if stop img request < start img request then .error .range
  else .ok (Report.lines (img.rangeLines request.showBytes (start img request) (stop img request)))

/-- **There is a listing if the program can be loaded and the range does not end early.** -/
theorem exists_listing_iff {request : RangeRequest} :
    (∃ text, file.listing request d = .ok text) ↔
      ¬ (file.Unloadable d ∨ file.EndsEarly request d) := by
  rw [not_or, ← exists_loaded_iff]
  constructor
  · rintro ⟨text, h⟩
    obtain ⟨img, himg, h⟩ := bind_eq_ok_iff.mp h
    refine ⟨⟨img, himg⟩, ?_⟩
    rintro ⟨content, hread, hlt⟩
    obtain ⟨hstart, hstop⟩ := start_stop_of_loaded hread himg request
    rw [← hstart, ← hstop] at hlt
    rw [if_pos hlt] at h
    cases h
  · rintro ⟨⟨img, himg⟩, hbounds⟩
    obtain ⟨program, hpayload, -⟩ := bind_eq_ok_iff.mp himg
    obtain ⟨content, hread, -⟩ := payload_eq_ok_iff.mp hpayload
    obtain ⟨hstart, hstop⟩ := start_stop_of_loaded hread himg request
    have hle : ¬ stop img request < start img request := by
      rw [hstart, hstop]
      exact fun hlt => hbounds ⟨content, hread, hlt⟩
    exact ⟨_, bind_eq_ok_iff.mpr ⟨img, himg, if_neg hle⟩⟩

/-- The steps of a listing before anything is written. -/
def select (file : ProgramFile) (request : RangeRequest) : ExceptT Failure (StateM Disk) String := do
  let img ← file.image
  if stop img request < start img request then throw .range
  else return Report.lines (img.rangeLines request.showBytes (start img request) (stop img request))

theorem perform_select (d : Disk) (file : ProgramFile) (request : RangeRequest) :
    d.perform (file.select request) = (file.listing request d, d) := by
  refine Disk.perform_bind_of_reads (perform_image d file) fun img => ?_
  by_cases hlt : stop img request < start img request
  · rw [if_pos hlt, if_pos hlt]
    rfl
  · rw [if_neg hlt, if_neg hlt]
    rfl

/-- **A listing is made before it is written.** -/
theorem perform_list (d : Disk) (file : ProgramFile) (request : RangeRequest) :
    d.perform (file.list request) =
      match file.listing request d with
      | .ok text => d.perform (deliver request.out text)
      | .error e => (.error e, d) := by
  have hsteps : file.list request = file.select request >>= deliver request.out := by
    rw [list, select, bind_assoc]
    refine congrArg (file.image >>= ·) (funext fun img => ?_)
    show (if stop img request < start img request then _ else _) = (if _ then _ else _) >>= _
    split <;> rfl
  rw [hsteps, Disk.perform_bind, perform_select]
  cases file.listing request d <;> rfl

/-! ## The labels -/

/-- No labels can be read from the file at a path: there is none, it is no text, or no list of labels. -/
inductive Unlabelled (path : String) (d : Disk) : Prop where
  | unreadable {e : FileFault} (h : d.read path = .error e)
  | notText {bytes : Bytes} (h : d.read path = .ok bytes) (htext : bytes.text? = none)
  | notLabels {bytes : Bytes} {document : String} (h : d.read path = .ok bytes)
      (htext : bytes.text? = some document) (hlabels : Label.read? document = none)

theorem labelsAt_eq_ok_iff {labels : List Label} :
    labelsAt path d = .ok labels ↔
      ∃ bytes, d.read path = .ok bytes ∧
        ∃ document, bytes.text? = some document ∧ Label.read? document = some labels := by
  simp only [labelsAt, bind_eq_ok_iff, mapError_eq_ok_iff, elim_eq_ok_iff]

theorem exists_labelsAt_iff : (∃ labels, labelsAt path d = .ok labels) ↔ ¬ Unlabelled path d := by
  simp only [labelsAt_eq_ok_iff]
  constructor
  · rintro ⟨labels, bytes, hread, document, htext, hlabels⟩ hbad
    cases hbad with
    | unreadable h => cases hread.symm.trans h
    | notText h hnone =>
      cases hread.symm.trans h
      cases htext.symm.trans hnone
    | notLabels h hsome hnone =>
      cases hread.symm.trans h
      cases htext.symm.trans hsome
      cases hlabels.symm.trans hnone
  · intro hgood
    cases hread : d.read path with
    | error e => exact absurd (.unreadable hread) hgood
    | ok bytes =>
      cases htext : bytes.text? with
      | none => exact absurd (.notText hread htext) hgood
      | some document =>
        cases hlabels : Label.read? document with
        | none => exact absurd (.notLabels hread htext hlabels) hgood
        | some labels => exact ⟨labels, bytes, rfl, document, htext, hlabels⟩

/-- **There is a report unless the program is unloadable or given labels are unlabelled.** -/
theorem exists_report_iff_readable {request : AnalyzeRequest} :
    (∃ r, file.report request d = .ok r) ↔
      ¬ (file.Unloadable d ∨ ∃ path, request.labelsIn = some path ∧ Unlabelled path d) := by
  rw [exists_report_iff, exists_loaded_iff, not_or, not_exists]
  simp only [exists_labelsAt_iff, not_and]

/-! ## What can be written -/

/-- Where a text can be delivered, it is. -/
theorem exists_deliver {out : Option String} (h : ∀ path, out = some path → ∃ p, d.place path = .ok p)
    (text : String) : ∃ printed, (d.perform (deliver out text)).1 = .ok printed := by
  cases out with
  | none => exact ⟨text, rfl⟩
  | some path =>
    obtain ⟨p, hp⟩ := h path rfl
    refine ⟨"", ?_⟩
    show (d.perform (writeFile path text >>= fun _ => pure "")).1 = _
    rw [Disk.perform_bind, Disk.perform_writeFile, hp]
    rfl

/-- Where the labels and the report can be written, they are. -/
theorem exists_publish {request : AnalyzeRequest}
    (h : ∀ path, request.labelsOut = some path ∨ request.out = some path → ∃ p, d.place path = .ok p)
    (r : Report) : ∃ printed, (d.perform (publish request r)).1 = .ok printed := by
  cases hlabels : request.labelsOut with
  | none =>
    rw [perform_publish_of_none hlabels]
    exact exists_deliver (fun path hout => h path (.inr hout)) _
  | some path =>
    obtain ⟨p, hp⟩ := h path (.inl hlabels)
    rw [perform_publish_of_place hlabels hp]
    refine exists_deliver (fun out hout => ?_) _
    -- the labels do not change where the path of the report leads
    obtain ⟨q, hq⟩ := h out (.inr hout)
    exact ⟨q, (d.samePlaces_stored path _).place_eq_ok_iff.mpr hq⟩

/-! ## Commands -/

open Invocation

/--
**What cannot be read leaves no trace.**

If the file of the program cannot be read, if what is skipped of it, how much is taken or where it is mapped is
out of bounds, if a range ends before it starts, or if the file of given labels is missing, is no text or holds
no list of labels, then the listing or the analysis fails with exit code 1 and prints nothing, and every file is
what it was, also one that was to be written. If none of this is the case, the command succeeds where the files
can be written that it is told to write.
-/
theorem bad_input_leaves_no_trace (d : Disk) (file : ProgramFile) :
    (∀ request : RangeRequest,
      (file.Unloadable d ∨ file.EndsEarly request d → LeavesNoTrace ⟨file, .range request⟩ d) ∧
        (¬ (file.Unloadable d ∨ file.EndsEarly request d) →
          (∀ path, request.out = some path → ∃ p, d.place path = .ok p) →
            ((run ⟨file, .range request⟩ : StateM Disk Result).run d).1.exitCode = 0)) ∧
    ∀ request : AnalyzeRequest,
      (file.Unloadable d ∨ (∃ path, request.labelsIn = some path ∧ Unlabelled path d) →
        LeavesNoTrace ⟨file, .analyze request⟩ d) ∧
        (¬ (file.Unloadable d ∨ ∃ path, request.labelsIn = some path ∧ Unlabelled path d) →
          (∀ path, request.labelsOut = some path ∨ request.out = some path →
            ∃ p, d.place path = .ok p) →
              ((run ⟨file, .analyze request⟩ : StateM Disk Result).run d).1.exitCode = 0) := by
  refine ⟨fun request => ⟨?_, fun hgood hout => ?_⟩, fun request => ⟨?_, fun hgood hout => ?_⟩⟩
  · exact leavesNoTrace_of_bad rfl (fun e he => by rw [perform_list, he]) exists_listing_iff
  · exact exitCode_of_not_bad rfl (fun text htext => by rw [perform_list, htext]) exists_listing_iff
      hgood (exists_deliver hout)
  · exact leavesNoTrace_of_bad rfl (fun e he => by rw [perform_analyze, he])
      exists_report_iff_readable
  · exact exitCode_of_not_bad rfl (fun r hr => by rw [perform_analyze, hr])
      exists_report_iff_readable hgood (exists_publish hout)

/--
A listing and an analysis that are to write over what they read do not if that makes no sense; a listing that
makes sense does.
-/
theorem bad_input_leaves_no_trace_aliased :
    let d : Disk := { files := [(["rom"], #[0x12, 0x00]), (["labels"], #[0xFF])] }
    LeavesNoTrace ⟨{ path := "rom" }, .range ⟨some 0x300, some 0x200, false, some "rom"⟩⟩ d ∧
      LeavesNoTrace ⟨{ path := "rom" },
        .analyze { labelsIn := some "labels", labelsOut := some "labels", out := some "rom" }⟩ d ∧
      ((run ⟨{ path := "rom" }, .range { out := some "rom" }⟩ : StateM Disk Result).run d).1.exitCode =
        0 := by
  intro d
  obtain ⟨hrange, hanalyze⟩ := bad_input_leaves_no_trace d { path := "rom" }
  have hearly : EndsEarly { path := "rom" } ⟨some 0x300, some 0x200, false, some "rom"⟩ d :=
    ⟨#[0x12, 0x00], rfl, by decide⟩
  have hread : d.read "labels" = .ok #[0xFF] := rfl
  refine ⟨(hrange _).1 (.inr hearly), (hanalyze _).1 (.inr ⟨"labels", rfl, .notText hread rfl⟩),
    (hrange _).2 (exists_listing_iff.mp ⟨_, rfl⟩) ?_⟩
  rintro path hout
  cases hout
  exact ⟨["rom"], rfl⟩

end ProgramFile

end Chip8
