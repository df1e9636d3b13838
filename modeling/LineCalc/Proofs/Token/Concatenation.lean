import LineCalc.Proofs.Token.Blank
import LineCalc.Statement

/-!
# Two texts with blanks between them

A text that starts later is split as before, and only the places move: those of its tokens, or that of
its error. So of two texts with blanks between them the first is split as it is on its own, and the
second as it is on its own but for the bytes before it.
-/

namespace LineCalc.Token

/-- The outcome with its places moved, be they those of tokens or that of an error. -/
def movedOutcome (f : Nat → Nat) :
    Except LexError (List Located) → Except LexError (List Located)
  | .ok ts => .ok (ts.map (Located.moved f))
  | .error e => .error (e.moved f)

variable {ws : List Char} {w : String}

/-! ## A text that starts later -/

theorem movedOutcome_map_cons (f : Nat → Nat) (t : Located)
    (outcome : Except LexError (List Located)) :
    movedOutcome f (outcome.map (t :: ·)) = (movedOutcome f outcome).map (t.moved f :: ·) := by
  cases outcome <;> rfl

theorem scan_add (position n : Nat) (cs : List Char) :
    scan (position + n) cs = movedOutcome (· + n) (scan position cs) := by
  -- Each step reads the text only, and goes on as many bytes later as the text starts.
  fun_induction scan position cs with
  | case1 position =>
      rw [scan]
      rfl
  | case2 position c cs hc ih => rw [scan_blank hc, Nat.add_right_comm, ih]
  | case3 position c cs hc hread => exact scan_of_read?_eq_none (by simpa using hc) hread
  | case4 position c cs _ lexeme rest hread _ htoken =>
      rw [scan_of_read?_eq_some hread, htoken]
      rfl
  | case5 position c cs _ lexeme rest hread _ token htoken ih =>
      rw [scan_of_read?_eq_some hread, htoken, movedOutcome_map_cons, ← ih, Nat.add_right_comm]
      rfl

/-! ## Blanks between two texts -/

theorem scan_append_blanks_append (hne : ws ≠ []) (hws : ∀ c ∈ ws, isBlank c = true)
    (position : Nat) (cs ds : List Char) :
    scan position (cs ++ ws ++ ds) =
      (scan position cs >>= fun ts =>
        (movedOutcome (· + bytes (cs ++ ws)) (scan position ds)).map (ts ++ ·)) := by
  have hskip : scan (position + bytes cs) (ws ++ ds) =
      movedOutcome (· + bytes (cs ++ ws)) (scan position ds) := by
    rw [scan_append_of_blank hws, Nat.add_assoc, ← bytes_append, scan_add]
  obtain ⟨b, ws, rfl⟩ := List.exists_cons_of_ne_nil hne
  have hb := hws b List.mem_cons_self
  rw [List.cons_append] at hskip
  rw [List.append_assoc, List.cons_append, scan_append_blank hb, hskip]

theorem ofLine_append_blanks_append (hne : w ≠ "") (hw : ∀ c ∈ w.toList, isBlank c = true)
    (a b : String) :
    ofLine (a ++ w ++ b) =
      (ofLine a >>= fun ts =>
        (movedOutcome (· + (a ++ w).utf8ByteSize) (ofLine b)).map (ts ++ ·)) := by
  have hws : w.toList ≠ [] := mt String.toList_eq_nil_iff.mp hne
  have hbytes : bytes (a.toList ++ w.toList) = (a ++ w).utf8ByteSize := by
    rw [← String.toList_append, bytes_toList]
  have hscan := scan_append_blanks_append hws hw 0 a.toList b.toList
  rwa [hbytes, ← String.toList_append, ← String.toList_append] at hscan

/-- If the first of two texts cannot be split, the line cannot be split for the same reason at the same
place. Otherwise it has the tokens of both, or the error of the second, and what is of the second is
moved by the bytes before it. -/
theorem ofLine_joined (hne : w ≠ "") (hw : ∀ c ∈ w.toList, isBlank c = true) (a b : String) :
    (∀ e, ofLine a = .error e → ofLine (a ++ w ++ b) = .error e) ∧
    ∀ ts, ofLine a = .ok ts →
      (∀ us, ofLine b = .ok us →
        ofLine (a ++ w ++ b) =
          .ok (ts ++ us.map (Located.moved (· + (a ++ w).utf8ByteSize)))) ∧
      ∀ e, ofLine b = .error e →
        ofLine (a ++ w ++ b) = .error (e.moved (· + (a ++ w).utf8ByteSize)) := by
  have hline := ofLine_append_blanks_append hne hw a b
  refine ⟨fun e ha => ?_, fun ts ha => ⟨fun us hb => ?_, fun e hb => ?_⟩⟩
  · rw [hline, ha, error_bind]
  · rw [hline, ha, hb, ok_bind]
    rfl
  · rw [hline, ha, hb, ok_bind]
    rfl

/-- A line break after half of a ratio, before a ratio, and before a character that starts no lexeme. -/
theorem ofLine_joined_line_break :
    "\r\n" ≠ "" ∧ (∀ c ∈ "\r\n".toList, isBlank c = true) ∧
    (ofLine "1\\" = .error (.unexpectedCharacter '\\' 1) ∧
      ofLine ("1\\" ++ "\r\n" ++ "2") = .error (.unexpectedCharacter '\\' 1)) ∧
    ofLine "12" = .ok [⟨.literal (.integer 12), 0⟩] ∧
    (ofLine "3\\4" = .ok [⟨.literal (.ratio 3 4), 0⟩] ∧
      ofLine ("12" ++ "\r\n" ++ "3\\4") =
        .ok [⟨.literal (.integer 12), 0⟩, ⟨.literal (.ratio 3 4), 4⟩]) ∧
    ofLine "x+é" = .error (.unexpectedCharacter 'é' 2) ∧
      ofLine ("12" ++ "\r\n" ++ "x+é") = .error (.unexpectedCharacter 'é' 6) := by
  have hne : "\r\n" ≠ "" := by decide
  have hblank : ∀ c ∈ "\r\n".toList, isBlank c = true := by simp [isBlank]
  have hhalf : ofLine "1\\" = .error (.unexpectedCharacter '\\' 1) := by decide +kernel
  have htwelve : ofLine "12" = .ok [⟨.literal (.integer 12), 0⟩] := by decide +kernel
  have hratio : ofLine "3\\4" = .ok [⟨.literal (.ratio 3 4), 0⟩] := by decide +kernel
  have hstrange : ofLine "x+é" = .error (.unexpectedCharacter 'é' 2) := by decide +kernel
  have hbytes : ("12" ++ "\r\n").utf8ByteSize = 4 := by decide +kernel
  refine ⟨hne, hblank, ⟨hhalf, (ofLine_joined hne hblank "1\\" "2").1 _ hhalf⟩, htwelve,
    ⟨hratio, ?_⟩, hstrange, ?_⟩
  · rw [((ofLine_joined hne hblank "12" "3\\4").2 _ htwelve).1 _ hratio, hbytes]
    rfl
  · rw [((ofLine_joined hne hblank "12" "x+é").2 _ htwelve).2 _ hstrange, hbytes]
    rfl

end LineCalc.Token
