import LineCalc.Token.Munch
import Mathlib.Data.List.TakeWhile

/-!
# The longest lexeme

A lexeme at the start of a text is read as the lexeme that it grows into there (`read?_text_append`),
and it grows by whole characters only. So reading finds the longest lexeme, if there is one, and a
lexeme that cannot grow into the text after it is read as it is.
-/

namespace LineCalc.Lexeme

/-- The lexeme that a lexeme grows into before a text, and what is left of the text. -/
def grow : Lexeme → List Char → Lexeme × List Char
  | .whole ds, cs => afterDigits (ds ++ cs.takeWhile Char.isDigit) (cs.dropWhile Char.isDigit)
  | .ratio n d, cs => (.ratio n (d ++ cs.takeWhile Char.isDigit), cs.dropWhile Char.isDigit)
  | .decimal w f, cs => (.decimal w (f ++ cs.takeWhile Char.isDigit), cs.dropWhile Char.isDigit)
  | .letters l, cs => (.letters (l ++ cs.takeWhile Char.isAlpha), cs.dropWhile Char.isAlpha)
  | .symbol s, cs => (.symbol s, cs)

theorem grow_nil (l : Lexeme) : l.grow [] = (l, []) := by
  cases l <;> simp [grow, afterDigits]

theorem isPrefix_afterDigits (ds cs : List Char) : ds <+: (afterDigits ds cs).1.text := by
  fun_cases afterDigits ds cs <;> simp [text]

theorem text_isPrefix_grow (l : Lexeme) (cs : List Char) : l.text <+: (l.grow cs).1.text := by
  cases l with
  | whole ds => exact (List.prefix_append ds _).trans (isPrefix_afterDigits _ _)
  | symbol s => exact List.prefix_rfl
  | _ => simp [grow, text]

/-! ## Reading where no lexeme starts, and one character -/

theorem not_isDigit_of_isAlpha {c : Char} (h : c.isAlpha = true) : c.isDigit = false := by
  refine Bool.eq_false_iff.mpr fun hdigit => ?_
  have hle : c.toNat ≤ 57 := (Char.isDigit_iff_toNat.mp hdigit).2
  rcases Bool.or_eq_true_iff.mp h with hupper | hlower
  · have hge : 65 ≤ c.toNat := (of_decide_eq_true hupper).1
    omega
  · have hge : 97 ≤ c.toNat := of_decide_eq_true (Bool.and_eq_true_iff.mp hlower).1
    omega

theorem read?_blank {c : Char} (h : Token.isBlank c = true) (cs : List Char) :
    read? (c :: cs) = none := by
  simp only [Token.isBlank, Bool.or_eq_true, beq_iff_eq] at h
  rcases h with (((rfl | rfl) | rfl) | rfl) | rfl <;> rfl

theorem read?_symbol (s : Symbol) (cs : List Char) :
    read? (s.char :: cs) = some (.symbol s, cs) := by
  rcases s with (_ | _ | _ | _ | _) | _ | _ | _ <;> rfl

/-! ## Reading digits -/

theorem read?_digits {ds : List Char} (h : IsDigits ds) (cs : List Char) :
    read? (ds ++ cs) =
      some (afterDigits (ds ++ cs.takeWhile Char.isDigit) (cs.dropWhile Char.isDigit)) := by
  obtain ⟨hne, hall⟩ := h
  obtain ⟨c, ds, rfl⟩ := List.exists_cons_of_ne_nil hne
  have hc := hall c List.mem_cons_self
  have hds := fun d hd => hall d (List.mem_cons_of_mem _ hd)
  rw [List.cons_append, read?, if_pos hc, List.takeWhile_append_of_pos hds,
    List.dropWhile_append_of_pos hds, List.cons_append]

theorem read?_digits_cons {ds : List Char} (h : IsDigits ds) {c : Char} (hc : c.isDigit = false)
    (cs : List Char) : read? (ds ++ c :: cs) = some (afterDigits ds (c :: cs)) := by
  rw [read?_digits h, List.takeWhile_cons_of_neg (by simp [hc]),
    List.dropWhile_cons_of_neg (by simp [hc]), List.append_nil]

theorem afterDigits_backslash (ds : List Char) {d : List Char} (hd : IsDigits d) (cs : List Char) :
    afterDigits ds ('\\' :: (d ++ cs)) =
      (.ratio ds (d ++ cs.takeWhile Char.isDigit), cs.dropWhile Char.isDigit) := by
  obtain ⟨hne, hall⟩ := hd
  obtain ⟨c, d, rfl⟩ := List.exists_cons_of_ne_nil hne
  rw [afterDigits, List.takeWhile_append_of_pos hall, List.dropWhile_append_of_pos hall,
    List.cons_append]

theorem read?_point {f : List Char} (hf : IsDigits f) (cs : List Char) :
    read? ('.' :: (f ++ cs)) =
      some (.decimal [] (f ++ cs.takeWhile Char.isDigit), cs.dropWhile Char.isDigit) := by
  obtain ⟨hne, hall⟩ := hf
  obtain ⟨c, f, rfl⟩ := List.exists_cons_of_ne_nil hne
  rw [read?, if_neg (by decide), if_neg (by decide), if_pos rfl,
    List.takeWhile_append_of_pos hall, List.dropWhile_append_of_pos hall, List.cons_append]

/-! ## Reading a lexeme -/

theorem read?_text_append {l : Lexeme} (h : l.Patterned) (cs : List Char) :
    read? (l.text ++ cs) = some (l.grow cs) := by
  cases l with
  | whole ds => exact read?_digits h cs
  | ratio n d =>
      rw [text, List.append_assoc, List.cons_append, read?_digits_cons h.1 (by decide),
        afterDigits_backslash n h.2]
      rfl
  | decimal w f =>
      obtain ⟨hne, hw, hf⟩ := h
      rw [text, List.append_assoc, List.cons_append]
      by_cases hnil : w = []
      · subst hnil
        exact read?_point ⟨hne.resolve_left (· rfl), hf⟩ cs
      · rw [read?_digits_cons ⟨hnil, hw⟩ (by decide), afterDigits,
          List.takeWhile_append_of_pos hf, List.dropWhile_append_of_pos hf]
        rfl
  | letters ls =>
      obtain ⟨hne, hall⟩ := h
      obtain ⟨c, ls, rfl⟩ := List.exists_cons_of_ne_nil hne
      have hc := hall c List.mem_cons_self
      have hls := fun d hd => hall d (List.mem_cons_of_mem _ hd)
      rw [text, List.cons_append, read?, if_neg (by simp [not_isDigit_of_isAlpha hc]), if_pos hc,
        List.takeWhile_append_of_pos hls, List.dropWhile_append_of_pos hls]
      rfl
  | symbol s => exact read?_symbol s cs

theorem read?_own_text {l : Lexeme} (h : l.Patterned) : read? l.text = some (l, []) := by
  rw [← List.append_nil l.text, read?_text_append h, grow_nil]

theorem text_injective {l m : Lexeme} (hl : l.Patterned) (hm : m.Patterned)
    (h : l.text = m.text) : l = m := by
  have hread := read?_own_text hl
  rw [h, read?_own_text hm] at hread
  cases hread
  rfl

/-! ## What is read -/

theorem afterDigits_patterned {ds : List Char} (h : IsDigits ds) (cs : List Char) :
    (afterDigits ds cs).1.Patterned := by
  fun_cases afterDigits ds cs with
  | case1 cs => exact ⟨.inl h.1, h.2, fun _ => List.mem_takeWhile_imp⟩
  | case2 cs => exact h
  | case3 cs hne => exact ⟨h, hne, fun _ => List.mem_takeWhile_imp⟩
  | case4 cs => exact h

theorem cons_takeWhile_all {p : Char → Bool} {c : Char} (hc : p c = true) (cs : List Char) :
    ∀ d ∈ c :: cs.takeWhile p, p d = true := by
  intro d hd
  rcases List.mem_cons.mp hd with rfl | hd
  · exact hc
  · exact List.mem_takeWhile_imp hd

theorem read?_patterned {cs rest : List Char} {l : Lexeme} (h : read? cs = some (l, rest)) :
    l.Patterned := by
  revert h
  fun_cases read? cs with
  | case1 =>
      intro h
      cases h
  | case2 c cs hc =>
      intro h
      have hp := afterDigits_patterned ⟨List.cons_ne_nil c _, cons_takeWhile_all hc cs⟩
        (cs.dropWhile Char.isDigit)
      rw [Option.some.inj h] at hp
      exact hp
  | case3 c cs _ hc =>
      intro h
      cases h
      exact ⟨List.cons_ne_nil c _, cons_takeWhile_all hc cs⟩
  | case4 =>
      intro h
      cases h
  | case5 cs _ _ hne =>
      intro h
      cases h
      exact ⟨.inr hne, List.forall_mem_nil _, fun _ => List.mem_takeWhile_imp⟩
  | case6 c cs =>
      intro h
      obtain ⟨s, -, he⟩ := Option.map_eq_some_iff.mp h
      cases he
      trivial

/-! ## The longest lexeme -/

theorem exists_read?_of_isPrefix {l : Lexeme} (hl : l.Patterned) {cs : List Char}
    (h : l.text <+: cs) : ∃ m rest, read? cs = some (m, rest) ∧ l.text <+: m.text := by
  obtain ⟨rest, rfl⟩ := h
  exact ⟨_, _, read?_text_append hl rest, text_isPrefix_grow l rest⟩

theorem read?_eq_none_iff {cs : List Char} :
    read? cs = none ↔ ∀ l : Lexeme, l.Patterned → ¬ l.text <+: cs := by
  constructor
  · intro h l hl hpre
    obtain ⟨m, rest, hread, -⟩ := exists_read?_of_isPrefix hl hpre
    cases h.symm.trans hread
  · intro h
    cases hread : read? cs with
    | none => rfl
    | some r => exact absurd ⟨r.2, read?_text hread⟩ (h r.1 (read?_patterned hread))

theorem read?_eq_some_iff {cs rest : List Char} {l : Lexeme} :
    read? cs = some (l, rest) ↔ l.Longest cs rest := by
  constructor
  · intro h
    refine ⟨read?_patterned h, read?_text h, fun m hm hpre => ?_⟩
    obtain ⟨l', rest', hread, hgrows⟩ := exists_read?_of_isPrefix hm hpre
    cases h.symm.trans hread
    exact hgrows.length_le
  · rintro ⟨hl, rfl, hle⟩
    -- What is read starts with this lexeme and is no longer, so it has the same text.
    obtain ⟨m, rest', hread, hgrows⟩ := exists_read?_of_isPrefix hl ⟨rest, rfl⟩
    have hm := read?_patterned hread
    have htext := read?_text hread
    have hsame : l.text = m.text := hgrows.eq_of_length_le (hle m hm ⟨rest', htext⟩)
    rw [← hsame] at htext
    rw [hread, text_injective hl hm hsame, List.append_cancel_left htext]

end LineCalc.Lexeme
