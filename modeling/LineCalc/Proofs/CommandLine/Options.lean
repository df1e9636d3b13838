import LineCalc.CommandLine.Options
import LineCalc.Proofs.Outcome

/-!
# Arguments before other arguments

Arguments that say nothing about the script are read in the same way after `-f` and a path. What they
turn on is turned on, and the path stays the argument left over.
-/

namespace LineCalc.CommandLine.Options

/-- Nothing is said about where the script is. -/
def Unplaced (o : Options) : Prop := o.contents = none ∧ o.has .file = false

/-- The same options, with a file for the script. -/
def onFile (path : String) (o : Options) : Options :=
  { o with flags := o.flags ++ [.file], contents := some path }

/-- A step that says nothing about the script goes through in the same way on a file. -/
def Carries (path : String) (step : Options → Except UsageError Options) : Prop :=
  ∀ o o', step o = .ok o' → o'.Unplaced → o.Unplaced ∧ step (o.onFile path) = .ok (o'.onFile path)

variable {path : String}

theorem Carries.bind {f g : Options → Except UsageError Options} (hf : Carries path f)
    (hg : Carries path g) : Carries path fun o => f o >>= g := by
  intro o o' h hplace
  obtain ⟨next, hnext, h⟩ := bind_eq_ok_iff.mp h
  obtain ⟨hmiddle, hlast⟩ := hg next o' h hplace
  obtain ⟨hplace, hfirst⟩ := hf o next hnext hmiddle
  refine ⟨hplace, ?_⟩
  change (f (o.onFile path) >>= g) = _
  rw [hfirst]
  exact hlast

theorem Carries.foldlM {α : Type} {f : Options → α → Except UsageError Options}
    (hf : ∀ a, Carries path (f · a)) (as : List α) : Carries path (as.foldlM f) := by
  induction as with
  | nil =>
      intro o o' h hplace
      cases h
      exact ⟨hplace, rfl⟩
  | cons a as ih =>
      simp only [List.foldlM_cons]
      exact (hf a).bind ih

/-! ## One argument -/

theorem has_onFile (o : Options) {flag : Flag} (h : flag ≠ .file) :
    (o.onFile path).has flag = o.has flag := by
  simp [has, onFile, h]

theorem carries_turnOn (flag : Flag) : Carries path (turnOn · flag) := by
  intro o o' h hplace
  simp only [turnOn] at h ⊢
  split at h
  · cases h
  · rename_i hoff
    cases h
    obtain ⟨hcontents, hfile⟩ := hplace
    have hflag : flag ≠ .file := by
      rintro rfl
      simp [has] at hfile
    refine ⟨⟨hcontents, ?_⟩, ?_⟩
    · simpa [has, Ne.symm hflag] using hfile
    · rw [has_onFile o hflag, if_neg hoff]
      rfl

theorem carries_turnOnLetter (letter : Char) : Carries path (turnOnLetter · letter) := by
  unfold turnOnLetter
  cases Flag.ofLetter? letter with
  | some flag => exact carries_turnOn flag
  | none => exact fun o o' h => nomatch h

/-- An argument that is left over would be the script. -/
theorem carries_take (argument : String) : Carries path (take · argument) := by
  intro o o' h hplace
  simp only [take] at h
  split at h
  · cases h
  · cases h
    cases hplace.1

theorem carries_takeArgument (argument : String) : Carries path (takeArgument · argument) := by
  unfold takeArgument
  split
  · cases Flag.ofLong? argument with
    | some flag => exact carries_turnOn flag
    | none => exact fun o o' h => nomatch h
  · exact Carries.foldlM carries_turnOnLetter _
  · exact carries_take argument

/-! ## All arguments -/

theorem carries_addArguments (arguments : List String) :
    Carries path (addArguments · arguments) := by
  intro o
  induction o, arguments using addArguments.induct with
  | case1 o =>
      intro o' h hplace
      cases h
      exact ⟨hplace, rfl⟩
  | case2 o rest => exact Carries.foldlM carries_take rest o
  | case3 o coefficient constant rest ih => exact ih
  | case4 o rest hvalues =>
      intro o' h
      simp only [addArguments] at h
      cases h
  | case5 o argument rest hdashes hvalues hplot ih =>
      simp only [addArguments]
      exact (carries_takeArgument argument).bind ih o

theorem takeArgument_of_head? (o : Options) (h : path.toList.head? ≠ some '-') :
    o.takeArgument path = o.take path := by
  unfold takeArgument
  split
  · rename_i hpath
    exact absurd (by rw [hpath]; rfl) h
  · rename_i hpath
    exact absurd (by rw [hpath]; rfl) h
  · rfl

theorem addArguments_path (h : path.toList.head? ≠ some '-') (arguments : List String) :
    bare.addArguments ("-f" :: path :: arguments) = (bare.onFile path).addArguments arguments := by
  have hdashes : path ≠ "--" := by
    rintro rfl
    exact h rfl
  have hplot : path ≠ "--plot" := by
    rintro rfl
    exact h rfl
  have hflag : bare.takeArgument "-f" = .ok { bare with flags := [.file] } := rfl
  have hcons : ({ bare with flags := [.file] } : Options).addArguments (path :: arguments) =
      (bare.onFile path).addArguments arguments := by
    rw [addArguments, takeArgument_of_head? _ h]
    · rfl
    · exact hdashes
    · exact fun _ _ _ hpath => absurd hpath hplot
    · exact hplot
  rw [addArguments, hflag]
  · exact hcons
  · decide
  · exact fun _ _ _ h => absurd h (by decide)
  · decide

/-- Arguments that say nothing about the script are the same after `-f` and a path. -/
theorem ofArguments_onFile {arguments : List String} {o : Options}
    (h : ofArguments arguments = .ok o) (hplace : o.Unplaced)
    (hpath : path.toList.head? ≠ some '-') :
    ofArguments ("-f" :: path :: arguments) = .ok (o.onFile path) := by
  obtain ⟨o', hadd, h⟩ := bind_eq_ok_iff.mp h
  split at h
  · cases h
  · rename_i hplots
    cases h
    have hcarried : (bare.onFile path).addArguments arguments = .ok (o.onFile path) :=
      (carries_addArguments arguments bare o hadd hplace).2
    rw [ofArguments, addArguments_path hpath, hcarried]
    change (if (o.onFile path).has .yFirst && o.plots.isEmpty then _ else _) = _
    rw [has_onFile o (show Flag.yFirst ≠ .file by decide), if_neg hplots]

end LineCalc.CommandLine.Options
