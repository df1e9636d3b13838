import LineCalc.Proofs.Token.Reading
import LineCalc.Token.Editing

/-!
# Blanks before, between and after lexemes

A blank is part of no lexeme, so it ends whatever lexeme is before it. A text that goes on after a blank
is split as its two parts are, and blanks at its end make no difference.
-/

namespace LineCalc

/-! ## The length of a text -/

namespace Token

@[simp] theorem bytes_nil : bytes [] = 0 := rfl

theorem bytes_append (cs ds : List Char) : bytes (cs ++ ds) = bytes cs + bytes ds := by
  rw [bytes, String.ofList_append, String.utf8ByteSize_append]
  rfl

theorem bytes_singleton (c : Char) : bytes [c] = c.utf8Size := by
  rw [bytes, ← String.singleton_eq_ofList, String.utf8ByteSize_singleton]

theorem bytes_cons (c : Char) (cs : List Char) : bytes (c :: cs) = c.utf8Size + bytes cs := by
  rw [← List.singleton_append, bytes_append, bytes_singleton]

theorem bytes_toList (source : String) : bytes source.toList = source.utf8ByteSize := by
  rw [bytes, String.ofList_toList]

theorem bytes_text (l : Lexeme) : bytes l.text = l.byteLength := rfl

end Token

/-! ## Lexemes before a blank -/

namespace Lexeme

variable {l : Lexeme} {b c : Char} {cs rest : List Char}

theorem continues_blank (l : Lexeme) (hb : Token.isBlank b = true) : l.continues b = false := by
  simp only [Token.isBlank, Bool.or_eq_true, beq_iff_eq] at hb
  rcases hb with (((rfl | rfl) | rfl) | rfl) | rfl <;> cases l <;> rfl

theorem not_isBlank_of_isDigit (hc : c.isDigit = true) : Token.isBlank c = false := by
  refine Bool.eq_false_iff.mpr fun hb => ?_
  have := continues_blank (.decimal [] []) hb
  exact Bool.noConfusion (hc.symm.trans this)

theorem not_isBlank_of_isAlpha (hc : c.isAlpha = true) : Token.isBlank c = false := by
  refine Bool.eq_false_iff.mpr fun hb => ?_
  have := continues_blank (.letters []) hb
  exact Bool.noConfusion (hc.symm.trans this)

/-- No character of a lexeme is a blank. -/
theorem not_isBlank_of_mem_text (hl : l.Patterned) (hc : c ∈ l.text) : Token.isBlank c = false := by
  cases l with
  | whole ds => exact not_isBlank_of_isDigit (hl.2 c hc)
  | ratio n d =>
      rcases List.mem_append.mp hc with hn | hc
      · exact not_isBlank_of_isDigit (hl.1.2 c hn)
      rcases List.mem_cons.mp hc with rfl | hd
      · rfl
      · exact not_isBlank_of_isDigit (hl.2.2 c hd)
  | decimal w f =>
      rcases List.mem_append.mp hc with hw | hc
      · exact not_isBlank_of_isDigit (hl.2.1 c hw)
      rcases List.mem_cons.mp hc with rfl | hf
      · rfl
      · exact not_isBlank_of_isDigit (hl.2.2 c hf)
  | letters cs => exact not_isBlank_of_isAlpha (hl.2 c hc)
  | symbol s =>
      rw [List.mem_singleton.mp hc]
      rcases s with (_ | _ | _ | _ | _) | _ | _ | _ <;> rfl

theorem isPrefix_of_isPrefix_append_blank (hl : l.Patterned) (hb : Token.isBlank b = true)
    (h : l.text <+: cs ++ b :: rest) : l.text <+: cs := by
  rcases List.prefix_or_prefix_of_prefix h (List.prefix_append cs _) with hpre | ⟨more, hmore⟩
  · exact hpre
  -- A longer lexeme would have the blank as its next character.
  · rw [← hmore, List.prefix_append_right_inj] at h
    cases more with
    | nil => exact ⟨[], by rw [← hmore, List.append_nil, List.append_nil]⟩
    | cons c more =>
        obtain rfl := (List.cons_prefix_cons.mp h).1
        have hmem : c ∈ l.text := by
          rw [← hmore]
          exact List.mem_append_right _ List.mem_cons_self
        exact Bool.noConfusion ((not_isBlank_of_mem_text hl hmem).symm.trans hb)

/-- Before a blank the same is read as at the end of a text. -/
theorem read?_append_blank (hb : Token.isBlank b = true) (cs rest : List Char) :
    read? (cs ++ b :: rest) = (read? cs).map fun r => (r.1, r.2 ++ b :: rest) := by
  cases hread : read? cs with
  | none =>
      refine read?_eq_none_iff.mpr fun m hm hpre => ?_
      exact read?_eq_none_iff.mp hread m hm (isPrefix_of_isPrefix_append_blank hm hb hpre)
  | some r =>
      obtain ⟨l, after⟩ := r
      obtain ⟨hl, htext, hle⟩ := read?_eq_some_iff.mp hread
      refine read?_eq_some_iff.mpr ⟨hl, ?_, fun m hm hpre => ?_⟩
      · rw [← List.append_assoc, htext]
      · exact hle m hm (isPrefix_of_isPrefix_append_blank hm hb hpre)

end Lexeme

/-! ## Texts before a blank -/

namespace Token

variable {position : Nat} {b : Char} {cs rest ws : List Char}

theorem scan_append_of_blank (hws : ∀ c ∈ ws, isBlank c = true) (position : Nat) (cs : List Char) :
    scan position (ws ++ cs) = scan (position + bytes ws) cs := by
  induction ws generalizing position with
  | nil => rfl
  | cons c ws ih =>
      obtain ⟨hc, hws⟩ := List.forall_mem_cons.mp hws
      rw [List.cons_append, scan_blank hc, ih hws, bytes_cons, Nat.add_assoc]

theorem scan_of_blank (hws : ∀ c ∈ ws, isBlank c = true) (position : Nat) :
    scan position ws = .ok [] := by
  have h := scan_append_of_blank hws position []
  rw [List.append_nil] at h
  rw [h, scan]

/-- A text up to a blank is split first, and the text from the blank on after it. -/
theorem scan_append_blank (hb : isBlank b = true) (position : Nat) (cs rest : List Char) :
    scan position (cs ++ b :: rest) =
      (scan position cs >>= fun ts => (scan (position + bytes cs) (b :: rest)).map (ts ++ ·)) := by
  fun_induction scan position cs with
  | case1 position =>
      rw [ok_bind, bytes_nil, Nat.add_zero, List.nil_append]
      cases scan position (b :: rest) <;> rfl
  | case2 position c cs hc ih =>
      rw [List.cons_append, scan_blank hc, ih, bytes_cons, Nat.add_assoc]
  | case3 position c cs hc hread =>
      have hsame := Lexeme.read?_append_blank hb (c :: cs) rest
      rw [hread] at hsame
      exact scan_of_read?_eq_none (by simpa using hc) hsame
  | case4 position c cs _ lexeme after hread _ htoken =>
      have hsame := Lexeme.read?_append_blank hb (c :: cs) rest
      rw [hread] at hsame
      rw [scan_of_read?_eq_some hsame, htoken, error_bind]
  | case5 position c cs _ lexeme after hread _ token htoken ih =>
      have hsame := Lexeme.read?_append_blank hb (c :: cs) rest
      rw [hread] at hsame
      have hbytes : lexeme.byteLength + bytes after = bytes (c :: cs) := by
        rw [← Lexeme.read?_text hread, bytes_append, bytes_text]
      rw [scan_of_read?_eq_some hsame, htoken, ← hbytes, ← Nat.add_assoc]
      simp only [ih]
      cases scan (position + lexeme.byteLength) after with
      | error e => rfl
      | ok ts => cases scan (position + lexeme.byteLength + bytes after) (b :: rest) <;> rfl

/-- Blanks at the end of a text make no difference. -/
theorem scan_append_blanks (hws : ∀ c ∈ ws, isBlank c = true) (position : Nat) (cs : List Char) :
    scan position (cs ++ ws) = scan position cs := by
  cases ws with
  | nil => rw [List.append_nil]
  | cons b ws =>
      rw [scan_append_blank (hws b List.mem_cons_self), scan_of_blank hws]
      cases scan position cs with
      | error e => rfl
      | ok ts => exact congrArg Except.ok (List.append_nil ts)

end Token

end LineCalc
