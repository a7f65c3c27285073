import Chip8.Proofs.Publication

/-!
# Labels that are written where they are read

An analysis that gets its labels from the file into which it writes them finds in that file, from the
second time on, the labels it is going to write (`ProgramFile.report_again`). So the file is not changed any
more. If the report goes to the same file, the report is what stays there, for a report is not read as labels
(`ProgramFile.labelsAt_of_read_render`).
-/

namespace Chip8

namespace ProgramFile

variable {d d' : Disk} {file : ProgramFile} {request : AnalyzeRequest} {r : Report}
  {path : String} {labels : List Label} {p : Path}

/-! ## What is read in the file -/

/-- A text is read as labels if it is the document of some. -/
theorem labelsAt_of_read_text {document : String} (h : d.read path = .ok (Bytes.ofText document)) :
    labelsAt path d = (Label.read? document).elim (.error .labels) .ok := by
  have htext : (Bytes.ofText document).text? = some document := Bytes.text?_ofText document
  rw [labelsAt, h]
  show Except.mapError (fun _ => _) ((Bytes.ofText document).text?.elim _ _) >>= _ = _
  rw [htext]
  show Except.mapError _ ((Label.read? document).elim _ _) = _
  cases Label.read? document <;> rfl

/-- **Labels that were written are given back.** -/
theorem labelsAt_of_read_write (h : d.read path = .ok (Bytes.ofText (Label.write labels))) :
    labelsAt path d = .ok labels := by
  rw [labelsAt_of_read_text h, Label.read?_write]
  rfl

/-- **A report gives no labels.** -/
theorem labelsAt_of_read_render (h : d.read path = .ok (Bytes.ofText (render request r))) :
    labelsAt path d = .error .labels := by
  have hread : Label.read? (render request r) = none := by
    unfold render Label.read?
    cases request.format with
    | json => rw [Report.parse?_toJson]; rfl
    | text => rw [Report.parse?_text]; rfl
  rw [labelsAt_of_read_text h, hread]
  rfl

/-- Labels are read from a place, and not from the null device, which is empty. -/
theorem exists_place_of_labelsAt (h : labelsAt path d = .ok labels) :
    ∃ p, d.place path = .ok p ∧ p ≠ d.nullDevice := by
  obtain ⟨content, hread, -⟩ := bind_eq_ok_iff.mp h
  rw [mapError_eq_ok_iff] at hread
  obtain ⟨p, hp, hnode⟩ := Disk.read_eq_ok_iff.mp hread
  refine ⟨p, hp, ?_⟩
  rintro rfl
  have hempty : content = Bytes.ofText "" := by
    unfold Disk.node? Disk.content? at hnode
    rw [if_pos rfl] at hnode
    split at hnode
    · cases hnode
    · cases hnode
      rfl
  have hnone : Label.read? "" = none := by simp [Label.read?, Json.parse?, Json.lexemes?]
  rw [labelsAt_of_read_text (hempty ▸ hread), hnone] at h
  cases h

/-! ## What is reported -/

/-- The same program and the labels of its report give the same report. -/
theorem report_again (h : file.report request d = .ok r) (hin : request.labelsIn = some path)
    (hprogram : d'.read file.path = d.read file.path)
    (hlabels : labelsAt path d' = .ok r.labels.toLabels) : file.report request d' = .ok r := by
  have hloaded : file.loaded d' = file.loaded d := by
    unfold loaded payload
    rw [hprogram]
  unfold report at h ⊢
  rw [hin] at h ⊢
  obtain ⟨img, himg, h⟩ := bind_eq_ok_iff.mp h
  obtain ⟨analysis, hanalysis, h⟩ := bind_eq_ok_iff.mp h
  obtain ⟨given, -, h⟩ := bind_eq_ok_iff.mp h
  cases h
  refine bind_eq_ok_iff.mpr ⟨img, hloaded.trans himg, bind_eq_ok_iff.mpr ⟨analysis, hanalysis,
    bind_eq_ok_iff.mpr ⟨_, hlabels, ?_⟩⟩⟩
  rw [LabelMap.build_toLabels]
  rfl

/-! ## What is written -/

/-- Whether the report goes to a place. -/
def Overwrites (request : AnalyzeRequest) (d : Disk) (p : Path) : Prop :=
  ∃ out, request.out = some out ∧ d.place out = .ok p

theorem overwrites_iff (h : d.SamePlaces d') : Overwrites request d' p ↔ Overwrites request d p := by
  unfold Overwrites
  simp only [h.place_eq_ok_iff]

/-- The labels are read in the file, unless the report goes there. -/
theorem read_publish_of_not_overwrites (hout : request.labelsOut = some path) (hp : d.place path = .ok p)
    (hnull : p ≠ d.nullDevice) (hnot : ¬ Overwrites request d p) :
    (d.perform (publish request r)).2.read path =
      .ok (Bytes.ofText (Label.write r.labels.toLabels)) := by
  let written := Bytes.ofText (Label.write r.labels.toLabels)
  have hsame : d.SamePlaces (d.stored path written) := d.samePlaces_stored path written
  have hread : (d.stored path written).read path = .ok written := Disk.read_stored_of_place hp hp hnull
  rw [← overwrites_iff hsame] at hnot
  rw [perform_publish_of_place hout hp, perform_deliver]
  cases hreport : request.out with
  | none => exact hread
  | some out =>
    have hne := fun h => hnot ⟨out, hreport, h⟩
    exact (Disk.read_stored_of_ne (hsame.place_eq_ok_iff.mpr hp) hne).mpr hread

/-- The report is read in the file if it goes there. -/
theorem read_publish_of_overwrites (hout : request.labelsOut = some path) (hp : d.place path = .ok p)
    (hnull : p ≠ d.nullDevice) (h : Overwrites request d p) :
    (d.perform (publish request r)).2.read path = .ok (Bytes.ofText (render request r)) := by
  have hsame := d.samePlaces_stored path (Bytes.ofText (Label.write r.labels.toLabels))
  rw [← overwrites_iff hsame] at h
  rw [perform_publish_of_place hout hp, perform_deliver]
  obtain ⟨out, hreport, hplace⟩ := h
  rw [hreport]
  refine Disk.read_stored_of_place (hsame.place_eq_ok_iff.mpr hp) hplace ?_
  rwa [hsame.nullDevice]

/-! ## A second time -/

/-- Where a report is, an analysis finds no labels, and writes nothing. -/
theorem perform_analyze_of_read_render (hin : request.labelsIn = some path)
    (hread : d.read path = .ok (Bytes.ofText (render request r))) :
    (d.perform (file.analyze request)).2 = d := by
  rw [perform_analyze]
  cases hreport : file.report request d with
  | error e => rfl
  | ok r' =>
    obtain ⟨labels, hlabels⟩ := (exists_report_iff.mp ⟨r', hreport⟩).2 path hin
    rw [labelsAt_of_read_render hread] at hlabels
    cases hlabels

/-- Where its labels are, an analysis finds them, and reports the same again. -/
theorem perform_analyze_of_read_write (hreport : file.report request d = .ok r)
    (hin : request.labelsIn = some path) (hprogram : d'.read file.path = d.read file.path)
    (hread : d'.read path = .ok (Bytes.ofText (Label.write r.labels.toLabels))) :
    d'.perform (file.analyze request) = d'.perform (publish request r) := by
  rw [perform_analyze, report_again hreport hin hprogram (labelsAt_of_read_write hread)]

/-- **A second analysis leaves the labels as the first one left them**, and prints the same report. -/
theorem perform_analyze_again (hin : request.labelsIn = some path)
    (hout : request.labelsOut = some path)
    (hprogram : (d.perform (file.analyze request)).2.read file.path = d.read file.path) :
    let first := d.perform (file.analyze request)
    let second := first.2.perform (file.analyze request)
    second.2.read path = first.2.read path ∧ (request.out = none → second.1 = first.1) := by
  intro first second
  cases hreport : file.report request d with
  | error e =>
    have hfirst : first = (.error e, d) := by
      show d.perform (file.analyze request) = _
      rw [perform_analyze, hreport]
    have hsecond : second = first := by
      show first.2.perform (file.analyze request) = d.perform (file.analyze request)
      rw [hfirst]
    rw [hsecond]
    exact ⟨rfl, fun _ => rfl⟩
  | ok r =>
    obtain ⟨labels, hlabels⟩ := (exists_report_iff.mp ⟨r, hreport⟩).2 path hin
    obtain ⟨p, hp, hnull⟩ := exists_place_of_labelsAt hlabels
    have hfirst : first = d.perform (publish request r) := by
      show d.perform (file.analyze request) = _
      rw [perform_analyze, hreport]
    by_cases hover : Overwrites request d p
    · have hread : first.2.read path = .ok (Bytes.ofText (render request r)) := by
        rw [hfirst]
        exact read_publish_of_overwrites hout hp hnull hover
      have hsecond : second.2 = first.2 := perform_analyze_of_read_render hin hread
      refine ⟨by rw [hsecond], fun hnone => ?_⟩
      obtain ⟨out, hsome, -⟩ := hover
      rw [hnone] at hsome
      cases hsome
    · have hread : first.2.read path = .ok (Bytes.ofText (Label.write r.labels.toLabels)) := by
        rw [hfirst]
        exact read_publish_of_not_overwrites hout hp hnull hover
      have hsecond : second = first.2.perform (publish request r) :=
        perform_analyze_of_read_write hreport hin hprogram hread
      -- the same is written on a disk where paths lead to the same places
      have hsame : d.SamePlaces first.2 := by
        rw [hfirst]
        exact samePlaces_publish d request r
      have hp' : first.2.place path = .ok p := hsame.place_eq_ok_iff.mpr hp
      have hnull' : p ≠ first.2.nullDevice := by rwa [hsame.nullDevice]
      constructor
      · rw [hread, hsecond]
        exact read_publish_of_not_overwrites hout hp' hnull' (mt (overwrites_iff hsame).mp hover)
      · intro hnone
        rw [hsecond, perform_publish_of_place hout hp', hfirst, perform_publish_of_place hout hp, hnone]
        rfl

end ProgramFile

namespace LabelMap

/--
**Labels that were written are stable.**

The labels of a map, in ascending order of their addresses, are its names. Given to what they were made for,
they are all there is: the map is the same. Given to anything else they are still there. They are read back
from their document. And so an analysis that gets its labels from the file into which it writes them changes
that file only once: a second one, of the same program, leaves it as it is.
-/
theorem toLabels_stable (given : List Label) (img : Image) (seeds : List Address) (a : Analysis)
    (g : Graph) :
    let labels := (build given img seeds a g).toLabels
    (labels.map Label.address).Pairwise (· < ·) ∧
      (∀ l, l ∈ labels ↔ (build given img seeds a g)[l.address]? = some l.name) ∧
      build labels img seeds a g = build given img seeds a g ∧
      (∀ img' seeds' a' g', ∀ l ∈ labels,
        (build labels img' seeds' a' g')[l.address]? = some l.name) ∧
      Label.read? (Label.write labels) = some labels ∧
      ∀ (d : Disk) (file : ProgramFile) (request : AnalyzeRequest) (path : String),
        request.labelsIn = some path → request.labelsOut = some path →
          let analysis : StateM Disk Result := Invocation.run ⟨file, .analyze request⟩
          let first := analysis.run d
          let second := analysis.run first.2
          first.2.read file.path = d.read file.path →
            second.2.read path = first.2.read path ∧ (request.out = none → second.1 = first.1) := by
  refine ⟨pairwise_toLabels _, fun _ => mem_toLabels_iff, build_toLabels,
    fun _ _ _ _ l hl => getElem?_build_toLabels (mem_toLabels_iff.mp hl), Label.read?_write _, ?_⟩
  intro d file request path hin hout analysis first second hprogram
  have hrun : ∀ e : Disk, analysis.run e =
      (.conclude ((e.perform (file.analyze request)).1.map fun text => ⟨0, text, none⟩),
        (e.perform (file.analyze request)).2) := fun e => ProgramFile.run_analyze e file request
  have hfirst : first.2 = (d.perform (file.analyze request)).2 := congrArg Prod.snd (hrun d)
  rw [hfirst] at hprogram
  obtain ⟨hread, hsame⟩ := ProgramFile.perform_analyze_again hin hout hprogram
  have hsecond : second = analysis.run (d.perform (file.analyze request)).2 := by
    show analysis.run first.2 = _
    rw [hfirst]
  rw [hsecond, hrun, hfirst]
  refine ⟨hread, fun hnone => ?_⟩
  have hresult : first.1 = _ := congrArg Prod.fst (hrun d)
  rw [hresult, hsame hnone]

/-- A program whose entry has a name, analyzed twice: both times there is a report. -/
theorem toLabels_stable_twice :
    ∃ d : Disk, d.read "rom" = .ok #[0x12, 0x00] ∧
      d.read "labels" = .ok (Bytes.ofText (Label.write [⟨0x200, "start"⟩])) ∧
        let analysis : StateM Disk Result := Invocation.run
          ⟨{ path := "rom" }, .analyze { labelsIn := some "labels", labelsOut := some "labels" }⟩
        let first := analysis.run d
        let second := analysis.run first.2
        first.1.exitCode = 0 ∧ second.2.read "labels" = first.2.read "labels" ∧ second.1 = first.1 := by
  let d : Disk := { files :=
    [(["rom"], #[0x12, 0x00]), (["labels"], Bytes.ofText (Label.write [⟨0x200, "start"⟩]))] }
  let file : ProgramFile := { path := "rom" }
  let request : AnalyzeRequest := { labelsIn := some "labels", labelsOut := some "labels" }
  have hrom : d.read "rom" = .ok #[0x12, 0x00] := rfl
  have hlabels : d.read "labels" = .ok (Bytes.ofText (Label.write [⟨0x200, "start"⟩])) := rfl
  have hplace : d.place "labels" = .ok ["labels"] := rfl
  obtain ⟨img, himg⟩ : ∃ img, Image.ofProgram #[0x12, 0x00] 0x200 = .ok img := ⟨_, rfl⟩
  have hpayload : file.payload d = .ok #[0x12, 0x00] :=
    ProgramFile.payload_eq_ok_iff.mpr ⟨_, hrom, rfl⟩
  have hloaded : file.loaded d = .ok img :=
    bind_eq_ok_iff.mpr ⟨_, hpayload, mapError_eq_ok_iff.mpr himg⟩
  let analysis : StateM Disk Result := Invocation.run ⟨file, .analyze request⟩
  have hrun := ProgramFile.run_analyze d file request
  -- the first time there is a report
  have hexit : (analysis.run d).1.exitCode = 0 := by
    have hgiven : ∀ path, request.labelsIn = some path →
        ∃ labels, ProgramFile.labelsAt path d = .ok labels := by
      rintro path ⟨⟩
      exact ⟨_, ProgramFile.labelsAt_of_read_write hlabels⟩
    obtain ⟨r, hr⟩ := ProgramFile.exists_report_iff.mpr ⟨⟨img, hloaded⟩, hgiven⟩
    rw [hrun, ProgramFile.perform_analyze, hr]
    simp only
    rw [ProgramFile.perform_publish_of_place rfl hplace]
    rfl
  -- the program is not written
  have hprogram : (analysis.run d).2.read "rom" = d.read "rom" := by
    have hplace' : d.place "rom" = .ok ["rom"] := rfl
    rw [hrun, hrom]
    refine ProgramFile.read_analyze_of_ne hplace' ?_ hrom
    rintro path (h | h)
    · cases (h : some "labels" = some path)
      rw [hplace]
      simp
    · cases (h : none = some path)
  obtain ⟨a, -⟩ := Image.exists_analyze himg [0x200] 4096
  obtain ⟨-, -, -, -, -, htwice⟩ :=
    toLabels_stable [⟨0x200, "start"⟩] img [0x200] a (Graph.ofAnalysis a [0x200])
  obtain ⟨hread, hsame⟩ := htwice d file request "labels" rfl rfl hprogram
  exact ⟨d, hrom, hlabels, hexit, hread, hsame rfl⟩

end LabelMap

end Chip8
