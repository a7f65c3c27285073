import Chip8.Proofs.Analysis
import Chip8.Proofs.Disk
import Chip8.Proofs.Json.Labels
import Chip8.Proofs.Labels

/-!
# What an analysis reads and writes

An analysis reads the program and the given labels, and only then writes: first the labels, then the report
(`ProgramFile.perform_analyze`). What it has read decides what it reports (`ProgramFile.report`), so nothing
is written when something cannot be read.
-/

namespace Chip8

/-! ## Text on a disk -/

/-- The bytes of a text are the bytes of that text. -/
@[simp]
theorem Bytes.text?_ofText (s : String) : (ofText s).text? = some s := by
  show String.fromUTF8? s.toUTF8 = some s
  rw [String.fromUTF8?, String.toUTF8_eq_toByteArray, dif_pos s.isValidUTF8]
  rfl

namespace Disk

variable {α β : Type} {d : Disk}

/-- What only reads, one after the other, only reads. -/
theorem perform_bind_of_reads {x : ExceptT Failure (StateM Disk) α}
    {f : α → ExceptT Failure (StateM Disk) β} {v : Except Failure α} {w : α → Except Failure β}
    (hx : d.perform x = (v, d)) (hf : ∀ a, d.perform (f a) = (w a, d)) :
    d.perform (x >>= f) = (v >>= w, d) := by
  rw [perform_bind, hx]
  cases v with
  | error e => rfl
  | ok a => exact hf a

/-- Writing a text stores its bytes, if the path leads to a place. -/
@[simp]
theorem perform_writeFile (d : Disk) (path text : String) :
    d.perform (ProgramFile.writeFile path text) =
      ((d.place path).mapError .file >>= fun _ => .ok (), d.stored path (Bytes.ofText text)) := by
  have hwrite : d.perform (ProgramFile.writeFile path text) =
      ((d.write path (Bytes.ofText text)).mapError .file >>= fun _ => .ok (),
        (d.write path (Bytes.ofText text)).toOption.getD d) := by
    simp only [perform, ProgramFile.writeFile, FileStore.write, ExceptT.run_mk, StateT.run_map,
      StateT.run_bind, StateT.run_get, pure_bind]
    cases d.write path (Bytes.ofText text) <;> rfl
  rw [hwrite, write_eq, stored]
  cases d.place path <;> rfl

end Disk

namespace ProgramFile

variable {d d' : Disk} {file : ProgramFile} {request : AnalyzeRequest} {r : Report}
  {path text : String} {labels : List Label}

/-! ## Reading -/

/-- The labels in the file at a path. -/
def labelsAt (path : String) (d : Disk) : Except Failure (List Label) := do
  let bytes ← (d.read path).mapError .file
  let document ← (bytes.text?.elim (.error ()) .ok : Except Unit String).mapError fun _ => .file .notText
  ((Label.read? document).elim (.error ()) .ok : Except Unit (List Label)).mapError fun _ => .labels

@[simp]
theorem perform_readLabels (d : Disk) (path : String) :
    d.perform (readLabels path) = (labelsAt path d, d) :=
  Disk.perform_bind_of_reads (d.perform_readFile path) fun _ =>
    Disk.perform_bind_of_reads (d.perform_orFail _ _) fun _ => d.perform_orFail _ _

/-- The image of the program. -/
def loaded (file : ProgramFile) (d : Disk) : Except Failure Image := do
  let program ← file.payload d
  (Image.ofProgram program file.base).mapError (.load ∘ .misfit)

/-- All that an analysis finds out, from what is read on a disk. -/
def report (file : ProgramFile) (request : AnalyzeRequest) (d : Disk) : Except Failure Report := do
  let img ← file.loaded d
  let seeds := seeds img request.entries
  let analysis ← (img.analyze seeds request.budget).mapError .walk
  let graph := Graph.ofAnalysis analysis seeds
  let given ← request.labelsIn.elim (.ok []) fun path => labelsAt path d
  return ⟨img, seeds, analysis, graph, LabelMap.build given img seeds analysis graph⟩

/-- **There is a report if the program can be loaded and the given labels can be read.** -/
theorem exists_report_iff :
    (∃ r, file.report request d = .ok r) ↔
      (∃ img, file.loaded d = .ok img) ∧
        ∀ path, request.labelsIn = some path → ∃ labels, labelsAt path d = .ok labels := by
  unfold report
  constructor
  · rintro ⟨r, h⟩
    obtain ⟨img, himg, h⟩ := bind_eq_ok_iff.mp h
    obtain ⟨analysis, -, h⟩ := bind_eq_ok_iff.mp h
    obtain ⟨given, hgiven, -⟩ := bind_eq_ok_iff.mp h
    refine ⟨⟨img, himg⟩, fun path hin => ?_⟩
    rw [hin] at hgiven
    exact ⟨given, hgiven⟩
  · rintro ⟨⟨img, himg⟩, hlabels⟩
    obtain ⟨program, -, hprogram⟩ := bind_eq_ok_iff.mp himg
    obtain ⟨analysis, hanalysis⟩ := Image.exists_analyze (mapError_eq_ok_iff.mp hprogram)
      (seeds img request.entries) request.budget
    obtain ⟨given, hgiven⟩ : ∃ given,
        request.labelsIn.elim (.ok []) (fun path => labelsAt path d) = .ok given := by
      cases hin : request.labelsIn with
      | none => exact ⟨[], rfl⟩
      | some path => exact hlabels path hin
    exact ⟨_, bind_eq_ok_iff.mpr ⟨img, himg, bind_eq_ok_iff.mpr ⟨analysis,
      mapError_eq_ok_iff.mpr hanalysis, bind_eq_ok_iff.mpr ⟨given, hgiven, rfl⟩⟩⟩⟩

/-- The steps of an analysis before anything is written. -/
def examine (file : ProgramFile) (request : AnalyzeRequest) : ExceptT Failure (StateM Disk) Report := do
  let img ← file.image
  let seeds := seeds img request.entries
  let analysis ← orFail .walk (img.analyze seeds request.budget)
  let graph := Graph.ofAnalysis analysis seeds
  let given ← request.labelsIn.elim (pure []) readLabels
  return ⟨img, seeds, analysis, graph, LabelMap.build given img seeds analysis graph⟩

@[simp]
theorem perform_examine (d : Disk) (file : ProgramFile) (request : AnalyzeRequest) :
    d.perform (file.examine request) = (file.report request d, d) := by
  have himage : d.perform file.image = (file.loaded d, d) := perform_image d file
  have hgiven : d.perform (request.labelsIn.elim (pure []) readLabels) =
      (request.labelsIn.elim (.ok []) fun path => labelsAt path d, d) := by
    cases request.labelsIn with
    | none => rfl
    | some path => exact perform_readLabels d path
  exact Disk.perform_bind_of_reads himage fun img =>
    Disk.perform_bind_of_reads (d.perform_orFail _ _) fun _ =>
      Disk.perform_bind_of_reads hgiven fun _ => rfl

/-! ## Writing -/

/-- The text of a report, in the form that is asked for. -/
def render (request : AnalyzeRequest) (r : Report) : String :=
  match request.format with
  | .json => (r.toJson request.showBytes).pretty ++ "\n"
  | .text => r.text request.listing request.showBytes

/-- Writes the labels and the report. -/
def publish (request : AnalyzeRequest) (r : Report) : ExceptT Failure (StateM Disk) String := do
  if let some path := request.labelsOut then
    writeFile path (Label.write r.labels.toLabels)
  deliver request.out (render request r)

/-- **An analysis reads all it needs before it writes.** -/
theorem perform_analyze (d : Disk) (file : ProgramFile) (request : AnalyzeRequest) :
    d.perform (file.analyze request) =
      match file.report request d with
      | .ok r => d.perform (publish request r)
      | .error e => (.error e, d) := by
  have hsteps : file.analyze request = file.examine request >>= publish request := by
    unfold analyze examine publish render
    cases request.labelsIn <;> cases request.labelsOut <;> simp only [bind_assoc, pure_bind] <;> rfl
  rw [hsteps, Disk.perform_bind, perform_examine]
  cases file.report request d <;> rfl

theorem perform_deliver (d : Disk) (out : Option String) (text : String) :
    (d.perform (deliver out text)).2 = out.elim d fun path => d.stored path (Bytes.ofText text) := by
  cases out with
  | none => rfl
  | some path =>
    show (d.perform (writeFile path text >>= fun _ => pure "")).2 = _
    rw [Disk.perform_bind, Disk.perform_writeFile]
    cases (d.place path) <;> rfl

/-- **The report is written behind the labels**, if these can be written. -/
theorem perform_publish (hout : request.labelsOut = some path) (r : Report) :
    d.perform (publish request r) =
      match d.place path with
      | .ok _ =>
        (d.stored path (Bytes.ofText (Label.write r.labels.toLabels))).perform
          (deliver request.out (render request r))
      | .error e => (.error (.file e), d) := by
  have hpublish : publish request r =
      writeFile path (Label.write r.labels.toLabels) >>= fun _ =>
        deliver request.out (render request r) := by
    unfold publish
    rw [hout]
  rw [hpublish, Disk.perform_bind, Disk.perform_writeFile]
  cases hp : d.place path with
  | ok p => rfl
  | error e =>
    rw [Disk.stored, hp]
    rfl

theorem perform_publish_of_place {p : Path} (hout : request.labelsOut = some path)
    (hp : d.place path = .ok p) (r : Report) :
    d.perform (publish request r) =
      (d.stored path (Bytes.ofText (Label.write r.labels.toLabels))).perform
        (deliver request.out (render request r)) := by
  rw [perform_publish hout, hp]

/-- Without a file for the labels only the report is written. -/
theorem perform_publish_of_none (hout : request.labelsOut = none) (r : Report) :
    d.perform (publish request r) = d.perform (deliver request.out (render request r)) := by
  unfold publish
  rw [hout]

/-! ## What stays as it is -/

/-- A property of a disk that every file that is written keeps is kept when a report is published. -/
theorem publish_preserves {P : Disk → Prop} (hd : P d)
    (hstored : ∀ path, request.labelsOut = some path ∨ request.out = some path →
      ∀ d content, P d → P (d.stored path content)) (r : Report) :
    P (d.perform (publish request r)).2 := by
  have hdeliver : ∀ d, P d → P (d.perform (deliver request.out (render request r))).2 := by
    intro d hd
    rw [perform_deliver]
    cases hout : request.out with
    | none => exact hd
    | some path => exact hstored path (.inr hout) d _ hd
  cases hout : request.labelsOut with
  | none =>
    rw [perform_publish_of_none hout]
    exact hdeliver d hd
  | some path =>
    rw [perform_publish hout]
    cases d.place path with
    | error e => exact hd
    | ok p => exact hdeliver _ (hstored path (.inl hout) d _ hd)

theorem samePlaces_publish (d : Disk) (request : AnalyzeRequest) (r : Report) :
    d.SamePlaces (d.perform (publish request r)).2 :=
  publish_preserves (.refl d) (fun path _ e content h => h.trans (e.samePlaces_stored path content)) r

/-- **An analysis changes no file but those it is told to write.** -/
theorem read_analyze_of_ne {other : String} {p : Path} {content : Bytes} (hp : d.place other = .ok p)
    (hne : ∀ path, request.labelsOut = some path ∨ request.out = some path → d.place path ≠ .ok p)
    (hread : d.read other = .ok content) :
    (d.perform (file.analyze request)).2.read other = .ok content := by
  rw [perform_analyze]
  cases file.report request d with
  | error e => exact hread
  | ok r =>
    refine (publish_preserves (P := fun e => d.SamePlaces e ∧ e.read other = .ok content)
      ⟨.refl d, hread⟩ ?_ r).2
    rintro path hpath e content ⟨hsame, hread⟩
    refine ⟨hsame.trans (e.samePlaces_stored path content), ?_⟩
    exact (Disk.read_stored_of_ne (hsame.place_eq_ok_iff.mpr hp)
      (mt hsame.place_eq_ok_iff.mp (hne path hpath))).mpr hread

/-- What a whole run of an analysis comes to. -/
theorem run_analyze (d : Disk) (file : ProgramFile) (request : AnalyzeRequest) :
    (Invocation.run ⟨file, .analyze request⟩ : StateM Disk Result).run d =
      (.conclude ((d.perform (file.analyze request)).1.map fun text => ⟨0, text, none⟩),
        (d.perform (file.analyze request)).2) :=
  Invocation.run_of_text rfl d

end ProgramFile

end Chip8
