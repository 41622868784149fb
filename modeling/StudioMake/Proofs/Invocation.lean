import StudioMake.Invocation
import StudioMake.Proofs.FileSystem
import StudioMake.Proofs.Project.Failures

/-!
# What a run changes

A run looks before it acts. Every step that can fail comes before the first one that changes
something, or is the change of the files itself, which fails without a change. So a run that fails
leaves everything as it was.
-/

set_option autoImplicit false

namespace StudioMake.Invocation

open Step

section Steps

namespace Step

variable {α β : Type} {x : Step α} {f : α → Step β}

theorem after_bind (x : Step α) (f : α → Step β) (left : Outcome) :
    (x >>= f).after left =
      match x.after left with
      | (.ok a, next) => (f a).after next
      | (.error cause, next) => (.error cause, next) := by
  unfold after ExceptT.run StateT.run
  simp only [bind, ExceptT.bind, ExceptT.mk, StateT.bind, ExceptT.bindCont]
  cases x left with
  | mk result next => cases result <;> rfl

theorem after_ask (f : FileSystem → Except Failure α) (left : Outcome) :
    (ask f).after left = (f left.files, left) :=
  rfl

/-- A step that changes nothing, whether or not it fails. -/
def Looks (x : Step α) : Prop := ∀ left, (x.after left).2 = left

def Sure (x : Step α) : Prop := ∀ left, ∃ a, (x.after left).1 = .ok a

/-- A step that changes nothing if it fails. -/
def Clean (x : Step α) : Prop :=
  ∀ left cause, (x.after left).1 = .error cause → (x.after left).2 = left

theorem looks_ask (f : FileSystem → Except Failure α) : Looks (ask f) := fun _ => rfl

theorem sure_replaceFiles (files : FileSystem) : Sure (replaceFiles files) := fun _ => ⟨(), rfl⟩

theorem sure_display (text : String) : Sure (display text) := fun _ => ⟨(), rfl⟩

theorem sure_ask_ok (f : FileSystem → α) : Sure (ask fun fs => .ok (f fs)) :=
  fun left => ⟨f left.files, rfl⟩

theorem Sure.bind (hx : Sure x) (hf : ∀ a, Sure (f a)) : Sure (x >>= f) := by
  intro left
  obtain ⟨a, ha⟩ := hx left
  obtain ⟨b, hb⟩ := hf a (x.after left).2
  refine ⟨b, ?_⟩
  rw [after_bind]
  rcases hs : x.after left with ⟨result, next⟩
  rw [hs] at ha hb
  cases ha
  exact hb

theorem Sure.clean (hx : Sure x) : Clean x := by
  intro left cause hc
  obtain ⟨a, ha⟩ := hx left
  rw [ha] at hc
  cases hc

theorem Looks.bind (hx : Looks x) (hf : ∀ a, Clean (f a)) : Clean (x >>= f) := by
  intro left cause hc
  have hl := hx left
  rw [after_bind] at hc ⊢
  rcases hs : x.after left with ⟨result, next⟩
  simp only [hs] at hc hl ⊢
  subst hl
  cases result with
  | error cause => rfl
  | ok a => exact hf a _ cause hc

end Step

theorem clean_report (request : Report.Request) (p : Project) : Clean (report request p) :=
  (looks_ask _).bind fun text => (sure_display text).clean

theorem clean_writeMakefile (output : String) (p : Project) : Clean (writeMakefile output p) := by
  refine (looks_ask _).bind fun files => Sure.clean ?_
  exact (sure_replaceFiles files).bind fun _ =>
    (sure_ask_ok _).bind fun text => sure_display text

theorem clean_run (i : Invocation) : Clean i.run := by
  refine (looks_ask _).bind fun _ => (looks_ask _).bind fun p => ?_
  cases i.request with
  | none => exact clean_writeMakefile i.output p
  | some request => exact clean_report request p

end Steps

section Results

variable {i : Invocation} {left : Outcome} {p : Project} {request : Report.Request}
  {cause : Failure}

/-- A run gets as far as its project: the output is a directory, and the input can be loaded. -/
structure Ready (fs : FileSystem) (i : Invocation) (p : Project) : Prop where
  output : fs.isDirectory i.output = true
  project : Project.load fs i.seeds i.input = .ok p

theorem checkOutput_eq_ok_iff {fs : FileSystem} {output : String} :
    checkOutput fs output = .ok () ↔ fs.isDirectory output = true := by
  unfold checkOutput
  constructor
  · intro h
    split at h
    · cases h
    · split at h
      · cases h
      · next hd => simpa using hd
  · intro h
    rw [FileSystem.pathExists_of_isDirectory h, h]
    rfl

def act (i : Invocation) (p : Project) : Step Unit :=
  match i.request with
  | some request => report request p
  | none => writeMakefile i.output p

theorem after_run_of_ready (h : Ready left.files i p) :
    i.run.after left = (i.act p).after left := by
  unfold run
  rw [after_bind, after_ask, checkOutput_eq_ok_iff.2 h.output]
  dsimp only
  rw [after_bind, after_ask, h.project]
  rfl

theorem after_run_of_not_ready (h : ∀ p, ¬ Ready left.files i p) :
    ∃ cause, i.run.after left = (.error cause, left) ∧
      ∀ name, cause ≠ .unknownConfiguration name := by
  unfold run
  rw [after_bind, after_ask]
  cases ho : checkOutput left.files i.output with
  | error cause =>
    refine ⟨cause, rfl, fun name hc => ?_⟩
    subst hc
    unfold checkOutput at ho
    split at ho
    · cases ho
    · split at ho <;> cases ho
  | ok _ =>
    dsimp only
    rw [after_bind, after_ask]
    cases hp : Project.load left.files i.seeds i.input with
    | ok p => exact absurd ⟨checkOutput_eq_ok_iff.1 ho, hp⟩ (h p)
    | error cause =>
      refine ⟨cause, rfl, fun name hc => ?_⟩
      subst hc
      have hloading := Project.load_failsOnly i.seeds i.input _ hp
      cases hloading

theorem after_report (request : Report.Request) (p : Project) (left : Outcome) :
    (report request p).after left =
      match Report.text p request with
      | .ok text => (.ok (), { left with text := left.text ++ text })
      | .error cause => (.error cause, left) := by
  unfold report
  rw [after_bind, after_ask]
  cases Report.text p request <;> rfl

theorem after_writeMakefile (output : String) (p : Project) (left : Outcome) :
    (writeMakefile output p).after left =
      match Makefile.writeTo left.files output p with
      | .ok files =>
        (.ok (), { text := left.text ++ announcement files output, files })
      | .error cause => (.error cause, left) := by
  unfold writeMakefile
  rw [after_bind, after_ask]
  cases Makefile.writeTo left.files output p <;> rfl

theorem Ready.unique {fs : FileSystem} {q : Project} (hp : Ready fs i p) (hq : Ready fs i q) :
    p = q :=
  Except.ok.inj (hp.project.symm.trans hq.project)

theorem unknownConfiguration_iff {name : String} :
    Report.text p request = .error (.unknownConfiguration name) ↔
      (∃ entry ∈ request.fields, entry.1 ≠ .configurations) ∧
        request.target = .configuration name ∧ ∀ c ∈ p.configurations, c.name ≠ name := by
  have hneeds : request.needsConfiguration = true ↔
      ∃ entry ∈ request.fields, entry.1 ≠ .configurations := by
    simp [Report.Request.needsConfiguration]
  unfold Report.text
  rw [← hneeds]
  cases request.needsConfiguration with
  | false => simp
  | true =>
    cases request.target with
    | all => simp
    | configuration wanted =>
      simp only [if_true, true_and, Report.Target.configuration.injEq]
      cases hc : p.configuration? wanted with
      | some c =>
        have hfound := List.find?_some hc
        have hmem := List.mem_of_find?_eq_some hc
        simp only [reduceCtorEq, false_iff, not_and]
        rintro rfl hn
        exact hn c hmem (by simpa using hfound)
      | none =>
        have hn := List.find?_eq_none.1 hc
        simp only [Except.error.injEq, Failure.unknownConfiguration.injEq]
        constructor
        · rintro rfl
          exact ⟨rfl, fun c hm => by simpa using hn c hm⟩
        · exact fun h => h.1

theorem writeTo_eq_ok_iff {fs files : FileSystem} {output : String} :
    Makefile.writeTo fs output p = .ok files ↔
      fs.write (Makefile.pathIn output) (Makefile.ofProject p).toUTF8.toList = .ok files := by
  unfold Makefile.writeTo
  cases fs.write (Makefile.pathIn output) (Makefile.ofProject p).toUTF8.toList <;> simp

theorem act_eq_ok_iff : ((i.act p).after left).1 = .ok () ↔
    match i.request with
    | some request => ∃ text, Report.text p request = .ok text
    | none => ∃ place, left.files.place (Path.join i.output "Makefile") = .ok place ∧
        left.files.entry? place ≠ some .directory := by
  unfold act
  cases i.request with
  | some request =>
    dsimp only
    rw [after_report]
    cases Report.text p request <;> simp
  | none =>
    have hwrite : (∃ files, Makefile.writeTo left.files i.output p = .ok files) ↔
        ∃ place, left.files.place (Path.join i.output "Makefile") = .ok place ∧
          left.files.entry? place ≠ some .directory := by
      simp only [writeTo_eq_ok_iff, FileSystem.write_eq_ok_iff]
      constructor
      · rintro ⟨files, place, hplace, hdir, -⟩
        exact ⟨place, hplace, hdir⟩
      · rintro ⟨place, hplace, hdir⟩
        exact ⟨_, place, hplace, hdir, rfl⟩
    dsimp only
    rw [after_writeMakefile, ← hwrite]
    cases Makefile.writeTo left.files i.output p <;> simp

/-- What is left when the work on a project is done. -/
theorem left_of_act (h : ((i.act p).after left).1 = .ok ()) :
    match i.request with
    | some request => ∃ text, Report.text p request = .ok text ∧
        ((i.act p).after left).2 = { left with text := left.text ++ text }
    | none => left.files.Rewritten ((i.act p).after left).2.files (Path.join i.output "Makefile")
          (Makefile.ofProject p).toUTF8.toList ∧
        ((i.act p).after left).2.text = left.text ++ announcement left.files i.output := by
  unfold act at h ⊢
  cases hr : i.request with
  | some request =>
    rw [hr] at h
    dsimp only at h ⊢
    rw [after_report] at h ⊢
    cases ht : Report.text p request with
    | ok text => exact ⟨text, rfl, rfl⟩
    | error cause =>
      rw [ht] at h
      cases h
  | none =>
    rw [hr] at h
    dsimp only at h ⊢
    rw [after_writeMakefile] at h ⊢
    cases hw : Makefile.writeTo left.files i.output p with
    | error cause =>
      rw [hw] at h
      cases h
    | ok files =>
      have hrewritten := FileSystem.rewritten_of_write (writeTo_eq_ok_iff.1 hw)
      refine ⟨hrewritten, ?_⟩
      dsimp only
      rw [announcement, announcement, FileSystem.workingPath, hrewritten.workingDirectory]
      rfl

theorem act_unknownConfiguration_iff {name : String} :
    ((i.act p).after left).1 = .error (.unknownConfiguration name) ↔
      ∃ request, i.request = some request ∧
        (∃ entry ∈ request.fields, entry.1 ≠ .configurations) ∧
        request.target = .configuration name ∧ ∀ c ∈ p.configurations, c.name ≠ name := by
  unfold act
  cases i.request with
  | some request =>
    simp only [Option.some.injEq, exists_eq_left']
    rw [← unknownConfiguration_iff, after_report]
    cases Report.text p request <;> simp
  | none =>
    rw [after_writeMakefile]
    unfold Makefile.writeTo
    cases left.files.write (Makefile.pathIn i.output) (Makefile.ofProject p).toUTF8.toList <;> simp

/-- A run that fails leaves the text and the files as they were. A run succeeds if its output is a
directory, its project can be loaded, and what it asks for can be reported or the makefile's path
leads to no directory. Then a report leaves the files alone and shows the text of the report, and
without one the makefile of the project stands in the output while all else is as it was. A
configuration is unknown only to a report: one that asks for more than names, of a configuration
that the project does not have. -/
theorem failed_run_changes_nothing (i : Invocation) (left : Outcome) :
    (∀ cause, (i.run.after left).1 = .error cause → (i.run.after left).2 = left) ∧
    ((i.run.after left).1 = .ok () ↔ ∃ p, Ready left.files i p ∧
      match i.request with
      | some request => ∃ text, Report.text p request = .ok text
      | none => ∃ place, left.files.place (Path.join i.output "Makefile") = .ok place ∧
          left.files.entry? place ≠ some .directory) ∧
    (∀ p, Ready left.files i p → (i.run.after left).1 = .ok () →
      match i.request with
      | some request => ∃ text, Report.text p request = .ok text ∧
          (i.run.after left).2 = { left with text := left.text ++ text }
      | none => left.files.Rewritten (i.run.after left).2.files (Path.join i.output "Makefile")
            (Makefile.ofProject p).toUTF8.toList ∧
          (i.run.after left).2.text = left.text ++ announcement left.files i.output) ∧
    (∀ name, (i.run.after left).1 = .error (.unknownConfiguration name) ↔
      ∃ p, Ready left.files i p ∧ ∃ request, i.request = some request ∧
        (∃ entry ∈ request.fields, entry.1 ≠ .configurations) ∧
        request.target = .configuration name ∧ ∀ c ∈ p.configurations, c.name ≠ name) := by
  refine ⟨clean_run i left, ?_⟩
  by_cases h : ∃ p, Ready left.files i p
  · obtain ⟨p, hp⟩ := h
    have hsame : ∀ q, Ready left.files i q ↔ q = p :=
      fun q => ⟨fun hq => hq.unique hp, fun h => h ▸ hp⟩
    rw [after_run_of_ready hp]
    simp only [hsame, exists_eq_left, forall_eq]
    exact ⟨act_eq_ok_iff, left_of_act, fun name => act_unknownConfiguration_iff⟩
  · have hn := not_exists.1 h
    obtain ⟨cause, hafter, hcause⟩ := after_run_of_not_ready hn
    rw [hafter]
    simp [hn, hcause]

def savedFiles : FileSystem :=
  ({} : FileSystem).addFile ["P.vcproj"] (text.toList.map fun c => UInt8.ofNat c.toNat)
where
  text : String :=
    "<VisualStudioProject Name=\"P\"><Configurations><Configuration Name=\"Debug|Win32\"/>" ++
    "</Configurations></VisualStudioProject>"

theorem failed_run_changes_nothing_saved :
    ∃ p left, Project.load savedFiles {} "P.vcproj" = .ok p ∧ p.name = "P" ∧
      ({ input := "P.vcproj" } : Invocation).run.after { files := savedFiles } = (.ok (), left) ∧
      left.files.read "./Makefile" = .ok (Makefile.ofProject p).toUTF8.toList ∧
      left.files.entry? ["P.vcproj"] = savedFiles.entry? ["P.vcproj"] ∧
      left.text = "Output: /Makefile\n" := by
  have hname : (Project.load savedFiles {} "P.vcproj").toOption.map Project.name = some "P" := by
    decide +kernel
  obtain ⟨p, hp, hn⟩ := Option.map_eq_some_iff.1 hname
  have hload := eq_ok_of_toOption hp
  have hready : Ready savedFiles { input := "P.vcproj" } p := ⟨by decide +kernel, hload⟩
  have hpath : Path.join "." "Makefile" = "./Makefile" := by decide +kernel
  have hplace : savedFiles.place "./Makefile" = .ok ["Makefile"] := by decide +kernel
  have h := failed_run_changes_nothing { input := "P.vcproj" } { files := savedFiles }
  rcases hrun : ({ input := "P.vcproj" } : Invocation).run.after { files := savedFiles } with
    ⟨result, left⟩
  simp only [hrun, hpath] at h
  obtain ⟨-, hok, hleft, -⟩ := h
  have hdone := hok.2 ⟨p, hready, ["Makefile"], hplace, by decide +kernel⟩
  obtain ⟨⟨-, hread, place, hwritten, helsewhere⟩, htext⟩ := hleft p hready hdone
  obtain rfl : ["Makefile"] = place := Except.ok.inj (hplace.symm.trans hwritten)
  exact ⟨p, left, hload, hn, Prod.ext hdone rfl, hread, helsewhere _ (by decide),
    htext.trans (by decide +kernel)⟩

end Results

end StudioMake.Invocation
