import Promela.Proofs.Files
import Promela.Proofs.Results

/-! The file that a result is handed over in. The result is written to a draft beside it first, and then the draft
gets its name: a run changes these two places, and no other. -/
namespace Promela
namespace CommandLine

/-- The path that a result is written to before it gets its own. -/
def draft (path : String) : String := Path.withExtension path "tmp"

/-- What is left at the place of the draft, where `before` was: a draft is not taken away if it cannot get its name. -/
def draftLeft (text : String) (before : Option Node) : Option ToolError → Option Node
  | none => none
  | some (.unrenamed ..) => some (.file (.ofText text))
  | some _ => before

/-- What is left of the files when a text has been handed over at a path, or an error has stopped that. -/
structure Leaves (path text : String) (error : Option ToolError) (fs fs' : FileSystem) : Prop where
  here : fs'.here = fs.here
  others : ∀ l, fs.slot? path ≠ some l → fs.slot? (CommandLine.draft path) ≠ some l → fs'.node? l = fs.node? l
  output : ∀ l, fs.slot? path = some l → fs'.node? l = if error = none then some (.file (.ofText text)) else fs.node? l
  draft : ∀ d, fs.slot? (CommandLine.draft path) = some d → fs.slot? path ≠ some d →
    fs'.node? d = draftLeft text (fs.node? d) error

theorem Leaves.refl {e : ToolError} (path text : String) (fs : FileSystem) (he : ∀ p f, e ≠ .unrenamed p f) :
    Leaves path text (some e) fs fs where
  here := rfl
  others _ _ _ := rfl
  output _ _ := rfl
  draft _ _ _ := by
    unfold draftLeft
    split
    next h => cases h
    next p f h => exact absurd (Option.some.inj h) (he p f)
    next => rfl

section

variable {σ : Type} {w : World (StateM σ)} {path text : String} {s s₁ s₂ : σ} {e : FileError}

theorem writeResult_unwritten (hwrite : (w.write (draft path) (.ofText text)).run s = (.error e, s₁)) :
    (writeResult w path text).run s = (some (.unwritten (draft path) e), s₁) := by
  unfold draft at hwrite
  unfold writeResult
  rw [run_bind, hwrite]
  rfl

theorem writeResult_unrenamed (hwrite : (w.write (draft path) (.ofText text)).run s = (.ok (), s₁))
    (hrename : (w.rename (draft path) path).run s₁ = (.error e, s₂)) :
    (writeResult w path text).run s = (some (.unrenamed path e), s₂) := by
  unfold draft at hwrite hrename
  unfold writeResult
  rw [run_bind, hwrite, run_bind, hrename]
  rfl

theorem writeResult_renamed (hwrite : (w.write (draft path) (.ofText text)).run s = (.ok (), s₁))
    (hrename : (w.rename (draft path) path).run s₁ = (.ok (), s₂)) :
    (writeResult w path text).run s = (none, s₂) := by
  unfold draft at hwrite hrename
  unfold writeResult
  rw [run_bind, hwrite, run_bind, hrename]
  rfl

end

section

variable {time : Timestamp} {path text : String} {error : Option ToolError} {fs fs' : FileSystem}

theorem write_ofFiles (content : Bytes) : ((World.ofFiles time).write path content).run fs
    = match fs.write path content with
      | .ok fs' => (.ok (), fs')
      | .error e => (.error e, fs) := rfl

theorem rename_ofFiles (source : String) : ((World.ofFiles time).rename source path).run fs
    = match fs.rename source path with
      | .ok fs' => (.ok (), fs')
      | .error e => (.error e, fs) := rfl

/-- The three ways in which handing over a text can end. -/
theorem writeResult_files (time : Timestamp) (path text : String) (fs : FileSystem) :
    (∃ e, (writeResult (.ofFiles time) path text).run fs = (some (.unwritten (draft path) e), fs) ∧
        fs.slot? (draft path) = none) ∨
      (∃ d e, (writeResult (.ofFiles time) path text).run fs
          = (some (.unrenamed path e), fs.put d (.file (.ofText text))) ∧
        fs.slot? (draft path) = some d ∧ fs.slot? path = none) ∨
      ∃ d l, (writeResult (.ofFiles time) path text).run fs
          = (none, ((fs.put d (.file (.ofText text))).erase d).put l (.file (.ofText text))) ∧
        fs.slot? (draft path) = some d ∧ fs.slot? path = some l := by
  cases hslot : fs.slot? (draft path) with
  | none =>
    cases hwrite : fs.write (draft path) (.ofText text) with
    | error e => exact .inl ⟨e, writeResult_unwritten (by rw [write_ofFiles, hwrite]), rfl⟩
    | ok fs₁ =>
      obtain ⟨d, hd, -⟩ := FileSystem.write_ok.mp hwrite
      cases hslot.symm.trans hd
  | some d =>
    right
    have hwrite : ((World.ofFiles time).write (draft path) (.ofText text)).run fs
        = (.ok (), fs.put d (.file (.ofText text))) := by
      rw [write_ofFiles, FileSystem.write_ok.mpr ⟨d, hslot, rfl⟩]
    obtain ⟨hplace, -, hnode⟩ := FileSystem.slot?_eq_some.mp hslot
    have hne := FileSystem.ne_nil_of_place? hplace
    have hsame := FileSystem.sameDirectories_put hne hnode (.ofText text)
    have hdraft := (FileSystem.slot?_congr hsame (draft path)).symm.trans hslot
    have hfile : (fs.put d (.file (.ofText text))).node? d = some (.file (.ofText text)) := FileSystem.node?_put hne
    cases hpath : fs.slot? path with
    | none =>
      cases hrename : (fs.put d (.file (.ofText text))).rename (draft path) path with
      | error e => exact .inl ⟨d, e, writeResult_unrenamed hwrite (by rw [rename_ofFiles, hrename]), rfl, rfl⟩
      | ok fs₂ =>
        obtain ⟨l, hl, -⟩ := (FileSystem.rename_ok hdraft hfile).mp hrename
        cases (hpath.symm.trans (FileSystem.slot?_congr hsame path)).trans hl
    | some l =>
      have hl := (FileSystem.slot?_congr hsame path).symm.trans hpath
      have hrename := (FileSystem.rename_ok hdraft hfile).mpr ⟨l, hl, rfl⟩
      exact .inr ⟨d, l, writeResult_renamed hwrite (by rw [rename_ofFiles, hrename]), rfl, rfl⟩

/-- What has been handed over, and the draft, are the only files that have changed. -/
theorem leaves_writeResult (h : (writeResult (.ofFiles time) path text).run fs = (error, fs')) :
    Leaves path text error fs fs' := by
  obtain ⟨e, hrun, hdraft⟩ | ⟨d, e, hrun, hdraft, hpath⟩ | ⟨d, l, hrun, hdraft, hpath⟩ :=
    writeResult_files time path text fs
  all_goals
    rw [hrun] at h
    cases h
  case inl => exact .refl path text fs nofun
  case inr.inl =>
    have hne := FileSystem.ne_nil_of_place? (FileSystem.slot?_eq_some.mp hdraft).1
    refine ⟨rfl, fun l _ hl => ?_, fun l hl => ?_, fun d' hd' _ => ?_⟩
    · exact FileSystem.node?_put_of_ne fun heq => hl (heq ▸ hdraft)
    · cases hpath.symm.trans hl
    · cases hdraft.symm.trans hd'
      exact FileSystem.node?_put hne
  case inr.inr =>
    have hned := FileSystem.ne_nil_of_place? (FileSystem.slot?_eq_some.mp hdraft).1
    have hnel := FileSystem.ne_nil_of_place? (FileSystem.slot?_eq_some.mp hpath).1
    refine ⟨rfl, fun l' hl hd => ?_, fun l' hl => ?_, fun d' hd' hl => ?_⟩
    · have hpath' : l' ≠ l := fun heq => hl (heq ▸ hpath)
      have hdraft' : l' ≠ d := fun heq => hd (heq ▸ hdraft)
      rw [FileSystem.node?_put_of_ne hpath', FileSystem.node?_erase_of_ne hdraft', FileSystem.node?_put_of_ne hdraft']
    · cases hpath.symm.trans hl
      exact FileSystem.node?_put hnel
    · cases hdraft.symm.trans hd'
      have hpath' : d ≠ l := fun heq => hl (heq ▸ hpath)
      rw [FileSystem.node?_put_of_ne hpath', FileSystem.node?_erase hned]
      rfl

end

namespace Leaves

variable {path text : String} {fs fs' : FileSystem} {l : Location}

/-- An error leaves what stands at the place of the output, be it a file or a directory. -/
theorem place_of_error {e : ToolError} (h : Leaves path text (some e) fs fs')
    (hslash : (Path.ofString path).endsInSlash = false) (hplace : fs.place? path = some l) :
    fs'.node? l = fs.node? l := by
  by_cases hslot : fs.slot? path = some l
  · exact h.output l hslot
  have hdirectory : fs.node? l = some .directory :=
    Decidable.byContradiction fun hnode => hslot (FileSystem.slot?_eq_some.mpr ⟨hplace, hslash, hnode⟩)
  exact h.others l hslot fun hdraft => (FileSystem.slot?_eq_some.mp hdraft).2.2 hdirectory

/-- Without an error nothing but the output has changed, if nothing has been in the way of the draft. -/
theorem elsewhere (h : Leaves path text none fs fs')
    (hfree : ∀ d, fs.slot? (CommandLine.draft path) = some d → fs.node? d = none ∨ fs.place? path = some d)
    (hl : fs.place? path ≠ some l) : fs'.node? l = fs.node? l := by
  have hslot : fs.slot? path ≠ some l := fun hslot => hl (FileSystem.slot?_eq_some.mp hslot).1
  by_cases hdraft : fs.slot? (CommandLine.draft path) = some l
  · have hnone : fs.node? l = none := (hfree l hdraft).resolve_right hl
    rw [h.draft l hdraft hslot, hnone]
    rfl
  · exact h.others l hslot hdraft

end Leaves

section

variable {σ : Type} {w : World (StateM σ)} {revision : Option String} {i : Invocation} {s s' : σ} {o : Outcome}
  {path : String}

/-- A run with an output either has no worker, or it hands its result over. -/
theorem execute_output (h : (execute w revision i).run s = (o, s')) (houtput : i.output = some path) :
    (i.command = .analyze (some 0) ∧ o.error = some .noWorkers ∧ s' = s) ∨
      (i.command ≠ .analyze (some 0) ∧
        (writeResult w path (w.result revision i s).1.text).run (w.result revision i s).2 = (o.error, s')) := by
  unfold execute at h
  by_cases hcommand : i.command = .analyze (some 0)
  · rw [if_pos hcommand] at h
    cases h
    exact .inl ⟨hcommand, rfl, rfl⟩
  right
  rw [if_neg hcommand] at h
  refine ⟨hcommand, ?_⟩
  simp only [houtput] at h
  rw [run_bind, run_bind, run_bind, run_bind] at h
  split at h
  next e hwrite =>
    cases h
    exact Prod.ext hwrite rfl
  next hwrite =>
    cases h
    exact Prod.ext hwrite rfl

end

theorem result_ofFiles (time : Timestamp) (revision : Option String) (i : Invocation) (fs : FileSystem) :
    ((World.ofFiles time).result revision i fs).2 = fs := rfl

/-- A run on files leaves them as it says, and comes to an error exactly if it has no worker, or no place for the draft
or for the output. -/
theorem execute_leaves {time : Timestamp} {revision : Option String} {i : Invocation} {fs fs' : FileSystem}
    {o : Outcome} {path : String} (h : (execute (.ofFiles time) revision i).run fs = (o, fs'))
    (houtput : i.output = some path) :
    Leaves path ((World.ofFiles time).result revision i fs).1.text o.error fs fs' ∧
      (o.error = none ↔
        i.command ≠ .analyze (some 0) ∧ (fs.slot? (draft path)).isSome ∧ (fs.slot? path).isSome) ∧
      ((fs.slot? path).isSome → o.error ≠ none → fs' = fs) := by
  obtain ⟨hcommand, herror, rfl⟩ | ⟨hcommand, hwrite⟩ := execute_output h houtput
  · rw [herror]
    exact ⟨.refl _ _ _ nofun, ⟨nofun, fun hok => absurd hcommand hok.1⟩, fun _ _ => rfl⟩
  · rw [result_ofFiles] at hwrite
    refine ⟨leaves_writeResult hwrite, ?_⟩
    obtain ⟨e, hrun, hdraft⟩ | ⟨d, e, hrun, hdraft, hpath⟩ | ⟨d, l, hrun, hdraft, hpath⟩ :=
      writeResult_files time path ((World.ofFiles time).result revision i fs).1.text fs
    all_goals obtain ⟨herror, hfs⟩ := Prod.mk.inj (hwrite.symm.trans hrun)
    case inl => exact ⟨by simp [herror, hdraft], fun _ _ => hfs⟩
    case inr.inl => exact ⟨by simp [herror, hpath], fun hsome => by simp [hpath] at hsome⟩
    case inr.inr => exact ⟨by simp [herror, hcommand, hdraft, hpath], fun _ hfailed => absurd herror hfailed⟩

/-- A run with an output changes no place but that of the output and that of the draft, which lies in the same directory
and has the same name up to the last dot. Without an error the output has the result, and the draft is gone, whatever
has been there. An error leaves the output as it is, but a draft that cannot get its name stays. So a run that finds
nothing at the place of its draft, and no directory at that of its output, touches nothing but the output, and with an
error not even that. -/
theorem output_leaves {args : List String} {i : Invocation} {path : String} (hargs : parse args = .ok (.run i))
    (houtput : i.output = some path) (time : Timestamp) (revision : Option String) (fs : FileSystem) :
    ∃ o fs', (run (.ofFiles time) revision args).run fs = (.ok o, fs') ∧
      Leaves path ((World.ofFiles time).result revision i fs).1.text o.error fs fs' ∧
      (o.error = none ↔
        i.command ≠ .analyze (some 0) ∧ (fs.slot? (draft path)).isSome ∧ (fs.slot? path).isSome) ∧
      (o.error ≠ none → (Path.ofString path).endsInSlash = false →
        ∀ l, fs.place? path = some l → fs'.node? l = fs.node? l) ∧
      ((fs.slot? path).isSome → (∀ d, fs.slot? (draft path) = some d → fs.node? d = none ∨ fs.place? path = some d) →
        (∀ l, fs.place? path ≠ some l → fs'.node? l = fs.node? l) ∧ (o.error ≠ none → fs' = fs)) ∧
      (∀ l d, fs.place? path = some l → fs.place? (draft path) = some d →
        ∃ dir name bare, l = dir ++ [name] ∧ d = dir ++ [bare ++ ".tmp"] ∧
          (name = bare ∨ ∃ old, '.' ∉ old.toList ∧ name = bare ++ "." ++ old)) := by
  obtain ⟨o, fs', hexecute⟩ : ∃ o fs', (execute (.ofFiles time) revision i).run fs = (o, fs') := ⟨_, _, rfl⟩
  obtain ⟨hleaves, herror, hsame⟩ := execute_leaves hexecute houtput
  refine ⟨o, fs', run_parsed _ revision i fs hargs hexecute, hleaves, herror, ?_, ?_, ?_⟩
  · intro hfailed hslash l hplace
    obtain ⟨e, he⟩ := Option.ne_none_iff_exists'.mp hfailed
    rw [he] at hleaves
    exact hleaves.place_of_error hslash hplace
  · intro hpath hfree
    refine ⟨fun l hl => ?_, hsame hpath⟩
    by_cases hok : o.error = none
    · rw [hok] at hleaves
      exact hleaves.elsewhere hfree hl
    · rw [hsame hpath hok]
  · intro l d hplace hdraft
    obtain ⟨dir, name, bare, hl, hd, hname⟩ := FileSystem.place?_withExtension (by decide) hplace hdraft
    exact ⟨dir, name, bare, hl, by rw [hd, String.append_assoc]; rfl, hname⟩

/-- The file that is read has the name of the draft: the run succeeds, and its input is gone. -/
theorem output_leaves_of_input_draft :
    let fs : FileSystem := ⟨[(["m.tmp"], .file (.ofText "byte x;"))], []⟩
    ∃ o fs', (run (.ofFiles ⟨0⟩) none ["typecheck", "m.tmp", "--output", "m.json"]).run fs = (.ok o, fs') ∧
      o.error = none ∧ fs'.node? ["m.tmp"] = none ∧
      ∀ l, l ≠ ["m.json"] → l ≠ ["m.tmp"] → fs'.node? l = fs.node? l := by
  intro fs
  have hargs : parse ["typecheck", "m.tmp", "--output", "m.json"]
      = .ok (.run ⟨.typecheck, "m.tmp", .json, some "m.json", false, 0⟩) := by decide +kernel
  obtain ⟨o, fs', hrun, hleaves, herror, -⟩ := output_leaves hargs rfl ⟨0⟩ none fs
  have hpath : fs.slot? "m.json" = some ["m.json"] := by decide +kernel
  have hdraft : fs.slot? (draft "m.json") = some ["m.tmp"] := by decide +kernel
  have hok : o.error = none := herror.mpr ⟨by decide, by simp [hdraft], by simp [hpath]⟩
  rw [hok] at hleaves
  refine ⟨o, fs', hrun, hok, hleaves.draft _ hdraft (by simp [hpath]), fun l hout htmp => ?_⟩
  exact hleaves.others l (by simpa [hpath] using hout.symm) (by simpa [hdraft] using htmp.symm)

/-- The output is a directory: the run fails, and its draft stays where nothing has been. -/
theorem draft_stays_beside_directory :
    let fs : FileSystem := ⟨[(["d"], .directory), (["m.pml"], .file (.ofText "byte x;"))], []⟩
    let ran := (run (.ofFiles ⟨0⟩) none ["typecheck", "m.pml", "--output", "d", "--format", "text"]).run fs
    fs.place? "d" = some ["d"] ∧
      ran.1.toOption.bind Outcome.error = some (.unrenamed "d" .isADirectory) ∧
      fs.node? ["d.tmp"] = none ∧ ran.2.node? ["d.tmp"] = some (.file (.ofText "status=pass exit_code=0")) := by
  decide +kernel

end CommandLine
end Promela
