import LineCalc.Proofs.Token.Munch

/-!
# Reading without positions

What a text says is its tokens in order, wherever it stands. Texts are read one after the other, as
long as no lexeme of the first takes in the start of the second, and none takes in a symbol. The whole
parts of the literals that are read are words, whatever digits are written.
-/

namespace LineCalc

namespace Lexeme

/-- The character may be more of the lexeme, or of a longer one. -/
def continues : Lexeme → Char → Bool
  | .whole _, c => c.isDigit || c == '.' || c == '\\'
  | .ratio _ _, c | .decimal _ _, c => c.isDigit
  | .letters _, c => c.isAlpha
  | .symbol _, _ => false

/-- The text does not start with more of the lexeme. -/
def EndsBefore (l : Lexeme) (cs : List Char) : Prop := ∀ c ∈ cs.head?, l.continues c = false

theorem endsBefore_nil (l : Lexeme) : l.EndsBefore [] := nofun

theorem endsBefore_cons_iff {l : Lexeme} {c : Char} {cs : List Char} :
    l.EndsBefore (c :: cs) ↔ l.continues c = false := by
  simp [EndsBefore]

/-- Of a text that is not empty the first character decides. -/
theorem endsBefore_append_iff {l : Lexeme} {cs : List Char} (hne : cs ≠ []) (rest : List Char) :
    l.EndsBefore (cs ++ rest) ↔ l.EndsBefore cs := by
  obtain ⟨c, cs, rfl⟩ := List.exists_cons_of_ne_nil hne
  exact endsBefore_cons_iff.trans endsBefore_cons_iff.symm

theorem continues_symbol (l : Lexeme) (s : Symbol) : l.continues s.char = false := by
  cases l <;> rcases s with (_ | _ | _ | _ | _) | _ | _ | _ <;> rfl

theorem afterDigits_of_ne (ds : List Char) {c : Char} (hpoint : c ≠ '.') (hbackslash : c ≠ '\\')
    (cs : List Char) : afterDigits ds (c :: cs) = (.whole ds, c :: cs) := by
  unfold afterDigits
  split
  · exact absurd (List.cons.inj ‹_›).1 hpoint
  · exact absurd (List.cons.inj ‹_›).1 hbackslash
  · rfl

theorem grow_of_endsBefore {l : Lexeme} {cs : List Char} (h : l.EndsBefore cs) :
    l.grow cs = (l, cs) := by
  cases cs with
  | nil => exact grow_nil l
  | cons c cs =>
      have hc := endsBefore_cons_iff.mp h
      cases l with
      | whole ds =>
          simp only [continues, Bool.or_eq_false_iff, beq_eq_false_iff_ne] at hc
          obtain ⟨⟨hdigit, hpoint⟩, hbackslash⟩ := hc
          simp only [grow, List.takeWhile_cons, List.dropWhile_cons, hdigit, Bool.false_eq_true,
            ↓reduceIte, List.append_nil]
          exact afterDigits_of_ne ds hpoint hbackslash cs
      | symbol s => rfl
      | _ => simp_all [grow, continues]

theorem isDigits_append_singleton {ds : List Char} (h : IsDigits ds) {c : Char}
    (hc : c.isDigit = true) : IsDigits (ds ++ [c]) :=
  ⟨List.append_ne_nil_of_left_ne_nil h.1 _,
    List.forall_mem_append.mpr ⟨h.2, List.forall_mem_singleton.mpr hc⟩⟩

/-- A backslash is the one character that makes no longer lexeme at once. -/
theorem exists_longer {l : Lexeme} (hl : l.Patterned) {c : Char} (hc : l.continues c = true)
    (hne : c ≠ '\\') : ∃ m : Lexeme, m.Patterned ∧ m.text = l.text ++ [c] := by
  cases l with
  | whole ds =>
      simp only [continues, Bool.or_eq_true, beq_iff_eq] at hc
      rcases hc with (hdigit | rfl) | hbackslash
      · exact ⟨.whole (ds ++ [c]), isDigits_append_singleton hl hdigit, rfl⟩
      · exact ⟨.decimal ds [], ⟨.inl hl.1, hl.2, nofun⟩, rfl⟩
      · exact absurd hbackslash hne
  | ratio n d =>
      exact ⟨.ratio n (d ++ [c]), ⟨hl.1, isDigits_append_singleton hl.2 hc⟩, by simp [text]⟩
  | decimal w f =>
      obtain ⟨-, hw, hf⟩ := hl
      refine ⟨.decimal w (f ++ [c]), ⟨.inr (by simp), hw, ?_⟩, by simp [text]⟩
      exact List.forall_mem_append.mpr ⟨hf, List.forall_mem_singleton.mpr hc⟩
  | letters cs =>
      refine ⟨.letters (cs ++ [c]), ⟨by simp, ?_⟩, rfl⟩
      exact List.forall_mem_append.mpr ⟨hl.2, List.forall_mem_singleton.mpr hc⟩
  | symbol s => cases hc

theorem endsBefore_of_read? {cs rest : List Char} {l : Lexeme} (h : read? cs = some (l, rest))
    (hne : rest.head? ≠ some '\\') : l.EndsBefore rest := by
  obtain ⟨hl, htext, hle⟩ := read?_eq_some_iff.mp h
  cases rest with
  | nil => exact endsBefore_nil l
  | cons c rest =>
      -- A character that continued the lexeme would make a longer one.
      refine endsBefore_cons_iff.mpr (Bool.eq_false_iff.mpr fun hc => ?_)
      obtain ⟨m, hm, hmtext⟩ := exists_longer hl hc fun heq => hne (congrArg some heq)
      have hpre : m.text <+: cs := ⟨rest, by rw [hmtext, ← htext]; simp⟩
      have := hle m hm hpre
      rw [hmtext, List.length_append] at this
      exact absurd this (by simp)

end Lexeme

namespace Token

/-- The text is read as the tokens. -/
inductive Reads : List Char → List Token → Prop
  | done : Reads [] []
  | blank {c : Char} {cs : List Char} {ts : List Token} :
      isBlank c = true → Reads cs ts → Reads (c :: cs) ts
  | token {cs rest : List Char} {l : Lexeme} {t : Token} {ts : List Token} :
      Lexeme.read? cs = some (l, rest) → l.token? = some t → Reads rest ts → Reads cs (t :: ts)

theorem reads_of_scan {position : Nat} {cs : List Char} {ts : List Located}
    (h : scan position cs = .ok ts) : Reads cs (ts.map Located.token) := by
  fun_induction scan position cs generalizing ts with
  | case1 => cases h; exact .done
  | case2 position c cs hblank ih => exact .blank hblank (ih h)
  | case3 => cases h
  | case4 => cases h
  | case5 position c cs _ lexeme rest hread _ token htoken ih =>
      obtain ⟨tail, htail, rfl⟩ := map_eq_ok_iff.mp h
      exact .token hread htoken (ih htail)

namespace Reads

variable {cs rest : List Char} {ts us : List Token}

theorem scan (h : Reads cs ts) (position : Nat) :
    ∃ located, Token.scan position cs = .ok located ∧ located.map Located.token = ts := by
  induction h generalizing position with
  | done => exact ⟨[], by rw [Token.scan], rfl⟩
  | @blank c cs ts hblank _ ih =>
      obtain ⟨located, hscan, htokens⟩ := ih (position + c.utf8Size)
      exact ⟨located, (scan_blank hblank cs).trans hscan, htokens⟩
  | @token cs rest l t ts hread htoken _ ih =>
      obtain ⟨located, hscan, rfl⟩ := ih (position + l.byteLength)
      refine ⟨⟨t, position⟩ :: located, ?_, rfl⟩
      rw [scan_of_read?_eq_some hread, htoken]
      simp only [hscan, Except.map]

theorem exists_ofLine_iff {source : String} {ts : List Token} :
    (∃ located, ofLine source = .ok located ∧ located.map Located.token = ts) ↔
      Reads source.toList ts :=
  ⟨fun ⟨_, hline, htokens⟩ => htokens ▸ reads_of_scan hline, fun h => h.scan 0⟩

theorem nil_iff : Reads cs [] ↔ ∀ c ∈ cs, isBlank c = true := by
  induction cs with
  | nil => exact ⟨nofun, fun _ => .done⟩
  | cons c cs ih =>
      rw [List.forall_mem_cons, ← ih]
      constructor
      · rintro (_ | ⟨hblank, h⟩)
        exact ⟨hblank, h⟩
      · rintro ⟨hblank, h⟩
        exact .blank hblank h

/-- A line without tokens is a line of blanks. -/
theorem ofLine_eq_nil_iff {source : String} :
    ofLine source = .ok [] ↔ ∀ c ∈ source.toList, isBlank c = true := by
  rw [← nil_iff, ← exists_ofLine_iff]
  constructor
  · exact fun h => ⟨[], h, rfl⟩
  · rintro ⟨located, hline, hnil⟩
    rwa [List.map_eq_nil_iff.mp hnil] at hline

theorem head?_ne_backslash (h : Reads cs ts) : cs.head? ≠ some '\\' := by
  intro hhead
  obtain ⟨cs, rfl⟩ := List.head?_eq_some_iff.mp hhead
  cases h with
  | blank hblank => cases hblank
  | token hread => cases hread

theorem lexeme {l : Lexeme} {t : Token} (hl : l.Patterned) (htoken : l.token? = some t)
    (hend : l.EndsBefore rest) (h : Reads rest ts) : Reads (l.text ++ rest) (t :: ts) :=
  .token (by rw [Lexeme.read?_text_append hl, Lexeme.grow_of_endsBefore hend]) htoken h

theorem symbol (s : Symbol) (h : Reads rest ts) : Reads (s.char :: rest) (.symbol s :: ts) :=
  .token (Lexeme.read?_symbol s rest) rfl h

theorem append_symbol (s : Symbol) (h : Reads cs ts) (hrest : Reads (s.char :: rest) us) :
    Reads (cs ++ s.char :: rest) (ts ++ us) := by
  induction h with
  | done => exact hrest
  | blank hblank _ ih => exact .blank hblank ih
  | @token cs after l t ts hread htoken hafter ih =>
      -- The lexeme ended before `after`, or at the end of the text, where now the symbol comes.
      have hend : l.EndsBefore (after ++ s.char :: rest) := by
        cases after with
        | nil => exact Lexeme.endsBefore_cons_iff.mpr (l.continues_symbol s)
        | cons c after =>
            rw [Lexeme.endsBefore_append_iff (List.cons_ne_nil c after)]
            exact Lexeme.endsBefore_of_read? hread hafter.head?_ne_backslash
      rw [← Lexeme.read?_text hread, List.append_assoc]
      exact lexeme (Lexeme.read?_patterned hread) htoken hend ih

end Reads

end Token

/-! ## Literals -/

theorem Lexeme.token?_fits {lexeme : Lexeme} {l : Literal}
    (h : lexeme.token? = some (.literal l)) : l.Fits := by
  cases lexeme with
  | whole ds =>
      obtain ⟨n, hn, hl⟩ := Option.map_eq_some_iff.mp h
      cases hl
      obtain ⟨hfits, rfl⟩ := Word.check?_eq_some_iff.mp hn
      exact hfits
  | ratio n d =>
      simp only [token?, Option.bind_eq_bind, Option.pure_def, Option.bind_eq_some_iff,
        Option.some.injEq] at h
      obtain ⟨p, hp, q, hq, hl⟩ := h
      cases hl
      obtain ⟨hpFits, rfl⟩ := Word.check?_eq_some_iff.mp hp
      obtain ⟨hqFits, rfl⟩ := Word.check?_eq_some_iff.mp hq
      exact ⟨hpFits, hqFits⟩
  | decimal w f => cases h; trivial
  | letters cs => cases h
  | symbol s => cases h

namespace Token

theorem scan_fits {position : Nat} {cs : List Char} {ts : List Located} {l : Literal}
    (h : scan position cs = .ok ts) (hl : .literal l ∈ ts.map Located.token) : l.Fits := by
  fun_induction scan position cs generalizing ts with
  | case1 => cases h; cases hl
  | case2 position c cs _ ih => exact ih h hl
  | case3 => cases h
  | case4 => cases h
  | case5 position c cs _ lexeme rest _ _ token htoken ih =>
      obtain ⟨tail, htail, rfl⟩ := map_eq_ok_iff.mp h
      rcases List.mem_cons.mp hl with rfl | hmem
      · exact Lexeme.token?_fits htoken
      · exact ih htail hmem

theorem ofLine_fits {source : String} {ts : List Located} {l : Literal}
    (h : ofLine source = .ok ts) (hl : .literal l ∈ ts.map Located.token) : l.Fits :=
  scan_fits h hl

end Token

end LineCalc
