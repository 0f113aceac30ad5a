import UcdTables.Proofs.Files.Write
import UcdTables.Proofs.Program.Stages

/-!
# What a build leaves

All tables are there before the first file is written. So a build that fails leaves the files as
they were, except where the tables are written and the statistics cannot be; then the tables are
complete.

* `build_ends`: the ways in which a build can end.
* `build_atomic`: which files it changes in each of them.
-/

namespace UcdTables.FileTree

variable {files changed : FileTree} {paths : BuildPaths}

/-- The tables of the databases at the paths of a build. -/
def tables (files : FileTree) (paths : BuildPaths) : Except BuildError (List RangeTable) :=
  (tablesOf (files.readDatabase paths.characters) (paths.scripts.map files.readDatabase)).result

/-- How a build can end: the files that it leaves, and its outcome. -/
inductive Ends (files : FileTree) (paths : BuildPaths) : FileTree → Except BuildError Unit → Prop
  /-- There are no tables. -/
  | noTables {e} : files.tables paths = .error e → Ends files paths files (.error e)
  /-- The tables cannot be written. -/
  | noOutput {ts reason} : files.tables paths = .ok ts →
      files.placeOf paths.output = .error reason →
      Ends files paths files (.error (.file paths.output reason))
  /-- The tables are written, and the statistics cannot be. -/
  | noStatistics {ts p path reason} : files.tables paths = .ok ts →
      files.placeOf paths.output = .ok p → paths.statistics = some path →
      (files.put p (.file (RangeTable.arrays ts).toUTF8)).placeOf path = .error reason →
      Ends files paths (files.put p (.file (RangeTable.arrays ts).toUTF8))
        (.error (.file path reason))
  /-- The tables are written, and no statistics are asked for. -/
  | tables {ts p} : files.tables paths = .ok ts → files.placeOf paths.output = .ok p →
      paths.statistics = none →
      Ends files paths (files.put p (.file (RangeTable.arrays ts).toUTF8)) (.ok ())
  /-- The tables and the statistics are written. -/
  | all {ts p path q} : files.tables paths = .ok ts → files.placeOf paths.output = .ok p →
      paths.statistics = some path → files.placeOf path = .ok q →
      Ends files paths
        ((files.put p (.file (RangeTable.arrays ts).toUTF8)).put q
          (.file (Statistics.ofTables ts).text.toUTF8)) (.ok ())

/-! ## One write after the other -/

theorem perform_cons_of_error (w : PendingWrite) (ws : List PendingWrite) {reason : FileFailure}
    (h : files.placeOf w.path = .error reason) :
    (files.perform (w :: ws)).1 = files ∧
      (files.perform (w :: ws)).2.result = .error (.file w.path reason) := by
  rw [perform, write_eq_error_iff.2 h]
  exact ⟨rfl, rfl⟩

theorem perform_cons_of_ok (w : PendingWrite) (ws : List PendingWrite) {p : Place}
    (h : files.placeOf w.path = .ok p) :
    (files.perform (w :: ws)).1 = ((files.put p (.file w.text.toUTF8)).perform ws).1 ∧
      (files.perform (w :: ws)).2.result =
        ((files.put p (.file w.text.toUTF8)).perform ws).2.result := by
  rw [perform, write_eq_ok_iff.2 ⟨p, h, rfl⟩]
  exact ⟨rfl, rfl⟩

/-- The write of the tables. -/
def outputWrite (paths : BuildPaths) (ts : List RangeTable) : PendingWrite :=
  ⟨paths.output, RangeTable.arrays ts,
    some (.tablesWritten (Statistics.ofTables ts).total paths.output)⟩

/-- The write of the statistics. -/
def statisticsWrite (path : String) (ts : List RangeTable) : PendingWrite :=
  ⟨path, (Statistics.ofTables ts).text, none⟩

theorem writes_eq (paths : BuildPaths) (ts : List RangeTable) :
    writes paths ts =
      outputWrite paths ts :: paths.statistics.toList.map (statisticsWrite · ts) := rfl

theorem build_of_error {e : BuildError} (h : files.tables paths = .error e) :
    (files.build paths).1 = files ∧ (files.build paths).2.result = .error e := by
  have hplan : (plan paths (files.readDatabase paths.characters)
      (paths.scripts.map files.readDatabase)).result = .error e := by
    rw [plan, Logged.result_bind]
    exact bind_eq_error_iff.2 (.inl h)
  constructor
  · simp only [build, hplan]
  · simp only [build, hplan]

theorem build_of_ok {ts : List RangeTable} (h : files.tables paths = .ok ts) :
    (files.build paths).1 = (files.perform (writes paths ts)).1 ∧
      (files.build paths).2.result = (files.perform (writes paths ts)).2.result := by
  have hplan : (plan paths (files.readDatabase paths.characters)
      (paths.scripts.map files.readDatabase)).result = .ok (writes paths ts) := by
    rw [plan, Logged.result_bind]
    exact bind_eq_ok_iff.2 ⟨ts, h, rfl⟩
  constructor
  · simp only [build, hplan]
  · simp only [build, hplan]

theorem ends_of_output {ts : List RangeTable} {p : Place} (htables : files.tables paths = .ok ts)
    (houtput : files.placeOf paths.output = .ok p) :
    let written := files.put p (.file (RangeTable.arrays ts).toUTF8)
    let ws := paths.statistics.toList.map (statisticsWrite · ts)
    Ends files paths (written.perform ws).1 (written.perform ws).2.result := by
  intro written ws
  cases hpath : paths.statistics with
  | none =>
    have hws : ws = [] := by simp only [ws, hpath]; rfl
    rw [hws]
    exact .tables htables houtput hpath
  | some path =>
    have hws : ws = [statisticsWrite path ts] := by simp only [ws, hpath]; rfl
    rw [hws]
    cases hplace : written.placeOf path with
    | error reason =>
      obtain ⟨hfiles, hresult⟩ := perform_cons_of_error (statisticsWrite path ts) [] hplace
      rw [hfiles, hresult]
      exact .noStatistics htables houtput hpath hplace
    | ok q =>
      obtain ⟨hfiles, hresult⟩ := perform_cons_of_ok (statisticsWrite path ts) [] hplace
      rw [hfiles, hresult]
      exact .all htables houtput hpath ((placeOf_put_iff (free_of_placeOf houtput)).1 hplace)

/-- A build ends in one of these ways. -/
theorem build_ends (files : FileTree) (paths : BuildPaths) :
    Ends files paths (files.build paths).1 (files.build paths).2.result := by
  cases htables : files.tables paths with
  | error e =>
    obtain ⟨hfiles, hresult⟩ := build_of_error htables
    rw [hfiles, hresult]
    exact .noTables htables
  | ok ts =>
    obtain ⟨hfiles, hresult⟩ := build_of_ok htables
    rw [hfiles, hresult, writes_eq]
    cases houtput : files.placeOf paths.output with
    | error reason =>
      obtain ⟨hfiles, hresult⟩ := perform_cons_of_error (outputWrite paths ts)
        (paths.statistics.toList.map (statisticsWrite · ts)) houtput
      rw [hfiles, hresult]
      exact .noOutput htables houtput
    | ok p =>
      obtain ⟨hfiles, hresult⟩ := perform_cons_of_ok (outputWrite paths ts)
        (paths.statistics.toList.map (statisticsWrite · ts)) houtput
      rw [hfiles, hresult]
      exact ends_of_output htables houtput

/-- A build succeeds if there are tables and its paths name places for files. -/
theorem build_eq_ok {ts : List RangeTable} {p : Place} (htables : files.tables paths = .ok ts)
    (houtput : files.placeOf paths.output = .ok p)
    (hstatistics : ∀ path ∈ paths.statistics, ∃ q, files.placeOf path = .ok q) :
    (files.build paths).2.result = .ok () := by
  have hends := build_ends files paths
  generalize (files.build paths).1 = left, (files.build paths).2.result = outcome at hends ⊢
  cases hends with
  | noTables htables' => cases htables.symm.trans htables'
  | noOutput _ houtput' => cases houtput.symm.trans houtput'
  | noStatistics _ houtput' hpath hplace =>
    obtain ⟨q, hq⟩ := hstatistics _ hpath
    cases ((placeOf_put_iff (free_of_placeOf houtput')).2 hq).symm.trans hplace
  | tables _ _ _ => rfl
  | all _ _ _ _ => rfl

/-- A build succeeds only if there are tables and its paths name places for files. -/
theorem exists_tables_of_build (h : (files.build paths).2.result = .ok ()) :
    ∃ ts p, files.tables paths = .ok ts ∧ files.placeOf paths.output = .ok p ∧
      ∀ path ∈ paths.statistics, ∃ q, files.placeOf path = .ok q := by
  have hends := build_ends files paths
  rw [h] at hends
  generalize (files.build paths).1 = left at hends
  cases hends with
  | tables htables houtput hpath => exact ⟨_, _, htables, houtput, by simp [hpath]⟩
  | all htables houtput hpath hplace => exact ⟨_, _, htables, houtput, by simp [hpath, hplace]⟩

/-! ## Which files change -/

/-- The statistics cannot be written, and the tables were. -/
def StatisticsFail (files : FileTree) (paths : BuildPaths) (path : String)
    (reason : FileFailure) : Prop :=
  ∃ ts written, files.tables paths = .ok ts ∧
    files.write paths.output (RangeTable.arrays ts) = .ok written ∧
    paths.statistics = some path ∧
    written.write path (Statistics.ofTables ts).text = .error reason

/-- Two trees differ at most at the places that some paths name for files to be written. -/
structure DifferAt (files changed : FileTree) (named : List String) : Prop where
  workingDirectory : changed.workingDirectory = files.workingDirectory
  node? : ∀ place, (∀ path ∈ named, files.placeOf path ≠ .ok place) →
    changed.node? place = files.node? place

/-- What a build leaves of the files. -/
structure Atomic (files : FileTree) (paths : BuildPaths) : Prop where
  /-- A build that fails before the statistics are written leaves the files as they were. -/
  unchanged : ∀ e, (files.build paths).2.result = .error e →
    (∀ path reason, ¬ StatisticsFail files paths path reason) → (files.build paths).1 = files
  /-- A build that fails to write the statistics changes the output only, and that holds all
  tables. -/
  output : ∀ path reason, StatisticsFail files paths path reason →
    (files.build paths).2.result = .error (.file path reason) ∧
      DifferAt files (files.build paths).1 [paths.output] ∧
      ∃ ts, files.tables paths = .ok ts ∧
        (files.build paths).1.readText paths.output = .ok (RangeTable.arrays ts)
  /-- No build that fails leaves an output in part. -/
  complete : ∀ e, (files.build paths).2.result = .error e → (files.build paths).1 = files ∨
    ∃ ts, files.tables paths = .ok ts ∧
      (files.build paths).1.readText paths.output = .ok (RangeTable.arrays ts)
  /-- A build that succeeds changes the output and the statistics only. -/
  written : (files.build paths).2.result = .ok () →
    DifferAt files (files.build paths).1 (paths.output :: paths.statistics.toList)

theorem differAt_put {path : String} {p : Place} (h : files.placeOf path = .ok p)
    (contents : ByteArray) : DifferAt files (files.put p (.file contents)) [path] := by
  refine ⟨rfl, fun place hplace => ?_⟩
  have hne : place ≠ p := by
    rintro rfl
    exact hplace path (by simp) h
  rw [node?_put (free_of_placeOf h).ne_nil, if_neg hne]

theorem DifferAt.put {named : List String} (h : DifferAt files changed named) {path : String}
    {p : Place} (hp : files.placeOf path = .ok p) (contents : ByteArray) :
    DifferAt files (changed.put p (.file contents)) (named ++ [path]) := by
  refine ⟨h.workingDirectory, fun place hplace => ?_⟩
  have hne : place ≠ p := by
    rintro rfl
    exact hplace path (by simp) hp
  rw [node?_put (free_of_placeOf hp).ne_nil, if_neg hne]
  exact h.node? place fun other hother => hplace other (List.mem_append_left _ hother)

namespace Ends

variable {outcome : Except BuildError Unit}

theorem eq_of_error {e : BuildError} (h : Ends files paths changed (.error e))
    (hstatistics : ∀ path reason, ¬ StatisticsFail files paths path reason) : changed = files := by
  cases h with
  | noTables _ => rfl
  | noOutput _ _ => rfl
  | noStatistics htables houtput hpath hplace =>
    exact (hstatistics _ _ ⟨_, _, htables, write_eq_ok_iff.2 ⟨_, houtput, rfl⟩, hpath,
      write_eq_error_iff.2 hplace⟩).elim

theorem of_statisticsFail {path : String} {reason : FileFailure}
    (h : Ends files paths changed outcome) (hfail : StatisticsFail files paths path reason) :
    outcome = .error (.file path reason) ∧ DifferAt files changed [paths.output] ∧
      ∃ ts, files.tables paths = .ok ts ∧
        changed.readText paths.output = .ok (RangeTable.arrays ts) := by
  obtain ⟨ts, written, htables, hwrite, hpath, hstatistics⟩ := hfail
  obtain ⟨p, houtput, rfl⟩ := write_eq_ok_iff.1 hwrite
  have hplace := write_eq_error_iff.1 hstatistics
  cases h with
  | noTables htables' => cases htables.symm.trans htables'
  | noOutput _ houtput' => cases houtput.symm.trans houtput'
  | noStatistics htables' houtput' hpath' hplace' =>
    cases htables.symm.trans htables'
    cases houtput.symm.trans houtput'
    cases hpath.symm.trans hpath'
    cases hplace.symm.trans hplace'
    exact ⟨rfl, differAt_put houtput _, ts, htables, readText_put houtput _⟩
  | tables _ _ hpath' => cases hpath.symm.trans hpath'
  | all htables' houtput' hpath' hplace' =>
    cases hpath.symm.trans hpath'
    cases hplace.symm.trans ((placeOf_put_iff (free_of_placeOf houtput)).2 hplace')

/-- A build that succeeds leaves the tables in its output, unless the statistics took its place. -/
theorem readText_of_ok (h : Ends files paths changed (.ok ()))
    (hplaces : ∀ path ∈ paths.statistics, files.placeOf path ≠ files.placeOf paths.output) :
    ∃ ts, files.tables paths = .ok ts ∧
      changed.readText paths.output = .ok (RangeTable.arrays ts) := by
  cases h with
  | @tables ts p htables houtput hpath => exact ⟨ts, htables, readText_put houtput _⟩
  | @all ts p path q htables houtput hpath hplace =>
    have hne : p ≠ q := by
      rintro rfl
      exact hplaces path hpath (hplace.trans houtput.symm)
    have hp := free_of_placeOf houtput
    have hq := hp.put (free_of_placeOf hplace) (RangeTable.arrays ts).toUTF8
    refine ⟨ts, htables, readText_of_placeOf (p := p) ?_ ?_⟩
    · rw [placeOf_put_iff hq, placeOf_put_iff hp]
      exact houtput
    · rw [node?_put hq.ne_nil, if_neg hne, node?_put hp.ne_nil, if_pos rfl]

theorem differAt_of_ok (h : Ends files paths changed (.ok ())) :
    DifferAt files changed (paths.output :: paths.statistics.toList) := by
  cases h with
  | tables _ houtput hpath =>
    rw [hpath]
    exact differAt_put houtput _
  | all _ houtput hpath hplace =>
    rw [hpath]
    exact (differAt_put houtput _).put hplace _

end Ends

/-- A build changes no file before all tables are there, and then the output and the statistics
only. -/
theorem build_atomic (files : FileTree) (paths : BuildPaths) : Atomic files paths := by
  have hends := build_ends files paths
  refine Atomic.mk ?unchanged ?output ?complete ?written
  case unchanged =>
    intro e he hstatistics
    rw [he] at hends
    exact hends.eq_of_error hstatistics
  case output =>
    intro path reason hfail
    exact hends.of_statisticsFail hfail
  case complete =>
    intro e he
    by_cases hstatistics : ∃ path reason, StatisticsFail files paths path reason
    · obtain ⟨path, reason, hfail⟩ := hstatistics
      exact .inr (hends.of_statisticsFail hfail).2.2
    · rw [he] at hends
      exact .inl (hends.eq_of_error fun path reason hfail => hstatistics ⟨path, reason, hfail⟩)
  case written =>
    intro hok
    rw [hok] at hends
    exact hends.differAt_of_ok

end UcdTables.FileTree
