import LineCalc.Proofs.Plot.Value
import LineCalc.Proofs.Session.RoundTrip

/-!
# A sweep is taken point by point

The text of a whole number is an expression with that number for its value, whatever the table is. So
the points of a sweep are the heights at the texts of its samples, and a sweep fails exactly as the
height at any one of these texts does.
-/

namespace LineCalc.Plot

/-- A sample and its value in the order of the axes. -/
def Orientation.pair (sample value : Float) : Orientation → Float × Float
  | .sampleFirst => (sample, value)
  | .valueFirst => (value, sample)

variable {table : SymbolTable} {coefficient constant : String} {start stop i : Int}

/-! ## Samples -/

theorem length_samples (start stop : Int) : (samples start stop).length = (stop - start).toNat := by
  rw [samples, List.length_map, List.length_range]

theorem getElem_samples {n : Nat} (hn : n < (samples start stop).length) :
    (samples start stop)[n] = start + n := by
  simp only [samples, List.getElem_map, List.getElem_range]

theorem fits_sample (hstart : Word.Fits start) (hstop : Word.Fits stop) {n : Nat}
    (hn : n < (stop - start).toNat) : Word.Fits (start + n) := by
  obtain ⟨hleast, -⟩ := hstart
  obtain ⟨-, hgreatest⟩ := hstop
  constructor <;> omega

theorem value_toString (table : SymbolTable) (hi : Word.Fits i) (hne : i ≠ Word.least) :
    value table (toString i) = .ok (.integer i) := by
  obtain ⟨e, hline, heval⟩ : ∃ e, Session.statement? (toString i) = some (.expression e) ∧
      ∀ table, e.eval table = .ok (.integer i) :=
    Session.exists_statement?_text (v := .integer i) hi trivial hne
  rw [value_of_expression hline, heval table]
  rfl

/-! ## Points -/

theorem point_eq_pair (orientation : Orientation) (line : Line) (i : Int) :
    point orientation line i =
      orientation.pair (Number.integer i).toFloat (line.height (.integer i)) := by
  cases orientation <;> rfl

theorem heightAt_toString (hi : Word.Fits i) (hne : i ≠ Word.least) :
    heightAt table coefficient constant (toString i) =
      (Line.ofSources table coefficient constant).map (·.height (.integer i)) := by
  rw [heightAt, value_toString table hi hne]
  cases Line.ofSources table coefficient constant <;> rfl

theorem sweep_eq_map (start stop : Int) (orientation : Orientation) :
    sweep table coefficient constant start stop orientation =
      (Line.ofSources table coefficient constant).map
        fun line => (samples start stop).map (point orientation line) := by
  rw [sweep]
  cases Line.ofSources table coefficient constant <;> rfl

/-- Of a sweep that succeeds, the points are those of the samples in order. -/
theorem getElem_sweep {orientation : Orientation} {points : List (Float × Float)}
    (h : sweep table coefficient constant start stop orientation = .ok points) :
    points.length = (stop - start).toNat ∧
      ∃ line, Line.ofSources table coefficient constant = .ok line ∧
        ∀ n (hn : n < points.length), points[n] =
          orientation.pair (Number.integer (start + n)).toFloat (line.height (.integer (start + n))) := by
  rw [sweep_eq_map] at h
  obtain ⟨line, hline, rfl⟩ := Result.map_eq_ok_iff.mp h
  refine ⟨by rw [List.length_map, length_samples], line, hline, fun n hn => ?_⟩
  rw [List.getElem_map, getElem_samples, point_eq_pair]

theorem sweep_swap (start stop : Int) :
    sweep table coefficient constant start stop .valueFirst =
      (sweep table coefficient constant start stop .sampleFirst).map (List.map Prod.swap) := by
  rw [sweep_eq_map, sweep_eq_map]
  cases Line.ofSources table coefficient constant with
  | ok line =>
      simp only [Result.map_ok, List.map_map]
      rfl
  | _ => rfl

/-- A sweep succeeds, fails or traps like the height at the text of any whole number, and its points are the
samples in order with the heights at their texts. -/
theorem sweep_pointwise (table : SymbolTable) (coefficient constant : String) {start stop : Int}
    (hstart : Word.Fits start) (hstop : Word.Fits stop) (orientation : Orientation) :
    ((∃ points, sweep table coefficient constant start stop orientation = .ok points) ↔
      ∀ i, Word.Fits i → i ≠ Word.least →
        ∃ y, heightAt table coefficient constant (toString i) = .ok y) ∧
    (∀ failure i, Word.Fits i → i ≠ Word.least →
      (sweep table coefficient constant start stop orientation = .error failure ↔
        heightAt table coefficient constant (toString i) = .error failure)) ∧
    (∀ i, Word.Fits i → i ≠ Word.least →
      (sweep table coefficient constant start stop orientation = .trap ↔
        heightAt table coefficient constant (toString i) = .trap)) ∧
    (∀ points, sweep table coefficient constant start stop orientation = .ok points →
      (points.length : Int) = max 0 (stop - start) ∧
      ∀ n (hn : n < points.length), ∃ y,
        points[n] = orientation.pair (Number.integer (start + n)).toFloat y ∧
        (start + n ≠ Word.least →
          heightAt table coefficient constant (toString (start + n)) = .ok y)) ∧
    sweep table coefficient constant start stop .valueFirst =
      (sweep table coefficient constant start stop .sampleFirst).map (List.map Prod.swap) := by
  refine ⟨?_, fun failure i hi hne => ?_, fun i hi hne => ?_, fun points hpoints => ?_,
    sweep_swap start stop⟩
  · rw [sweep_eq_map, Result.exists_map_eq_ok_iff]
    constructor
    · intro hline i hi hne
      rw [heightAt_toString hi hne]
      exact Result.exists_map_eq_ok_iff.mpr hline
    · intro h
      -- Any number will do, since only the line can fail.
      have hzero := h 0 (by decide) (by decide)
      rw [heightAt_toString (by decide) (by decide)] at hzero
      exact Result.exists_map_eq_ok_iff.mp hzero
  · rw [sweep_eq_map, heightAt_toString hi hne, Result.map_eq_error_iff, Result.map_eq_error_iff]
  · rw [sweep_eq_map, heightAt_toString hi hne, Result.map_eq_trap_iff, Result.map_eq_trap_iff]
  · obtain ⟨hlength, line, hline, hpoint⟩ := getElem_sweep hpoints
    refine ⟨by omega, fun n hn => ⟨_, hpoint n hn, fun hne => ?_⟩⟩
    rw [heightAt_toString (fits_sample hstart hstop (hlength ▸ hn)) hne, hline]
    rfl

/-- A sweep from the least word on, whose second sample is the first with a text that is read back. -/
theorem sweep_pointwise_least :
    let table : SymbolTable := ⟨[("a", .rational ⟨1, 2⟩)]⟩
    Word.Fits Word.least ∧ Word.Fits (Word.least + 3) ∧
      ∃ points y, sweep table "a ^ 2" "a" Word.least (Word.least + 3) .valueFirst = .ok points ∧
        (points.length : Int) = 3 ∧
        points[1]? = some (y, (Number.integer (Word.least + 1)).toFloat) ∧
        heightAt table "a ^ 2" "a" "-9223372036854775807" = .ok y := by
  intro table
  have hstart : Word.Fits Word.least := by decide
  have hstop : Word.Fits (Word.least + 3) := by decide
  obtain ⟨-, -, -, hpoints, -⟩ := sweep_pointwise table "a ^ 2" "a" hstart hstop .valueFirst
  have hline : Line.ofSources table "a ^ 2" "a" = .ok ⟨.rational ⟨1, 4⟩, .rational ⟨1, 2⟩⟩ := by
    decide +kernel
  obtain ⟨points, hsweep⟩ :
      ∃ points, sweep table "a ^ 2" "a" Word.least (Word.least + 3) .valueFirst = .ok points := by
    rw [sweep_eq_map]
    exact Result.exists_map_eq_ok_iff.mpr ⟨_, hline⟩
  obtain ⟨hlength, hpoint⟩ := hpoints points hsweep
  have hthree : (points.length : Int) = 3 := hlength
  obtain ⟨y, hpair, hheight⟩ := hpoint 1 (by omega)
  have htext : toString (Word.least + (1 : Nat)) = "-9223372036854775807" := by decide +kernel
  rw [htext] at hheight
  exact ⟨hstart, hstop, points, y, hsweep, hthree, List.getElem?_eq_some_iff.mpr ⟨_, hpair⟩,
    hheight (by decide)⟩

end LineCalc.Plot
