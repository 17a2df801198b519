import Clausal.Token.Stream

/-!
What a lexeme is depends on the text after it through one character at most. A text that is one
lexeme of a kind stays that lexeme wherever the character after it could not have been part of it
and could not have changed it, and which characters those are is a matter of the kind alone.
-/

namespace Clausal

namespace Lexeme

/-- The text is one lexeme of the kind when the other one follows. -/
def Stands (kind : Token.Kind) (text rest : List Char) : Prop :=
  ∃ c cs, text = c :: cs ∧ Text.isBlank c = false ∧ read c (cs ++ rest) = token kind cs.length

def isWordKind (kind : Token.Kind) : Bool :=
  kind ∈ [Token.Kind.keyword, .typeName, .boolean, .identifier]

/-- What follows goes on with no lexeme of the kind. -/
def Separates (kind : Token.Kind) (rest : List Char) : Prop :=
  ∀ c ∈ rest.head?,
    (isWordKind kind = true ∨ kind = .number → isWordChar c = false) ∧
    (kind = .number → c ≠ '.') ∧ (kind = .comment → c = '\n') ∧
    (kind = .arithOp ∨ kind = .compareOp ∨ kind = .assign → c ∉ ['=', '>', '/'])

theorem separates_nil (kind : Token.Kind) : Separates kind [] := by simp [Separates]

section Runs

variable {p : Char → Bool} {cs rest : List Char}

/-- A run ends where the character behind it is not of its kind. -/
theorem runLength_append (inside : ∀ c ∈ cs, p c = true)
    (boundary : ∀ c ∈ rest.head?, p c = false) : runLength p (cs ++ rest) = cs.length := by
  have hrest : rest.takeWhile p = [] := by
    cases rest with
    | nil => rfl
    | cons c rest => simp [boundary c (by simp)]
  rw [runLength, List.takeWhile_append_of_pos inside, hrest, List.append_nil]

theorem forall_of_length_le_runLength (h : cs.length ≤ runLength p (cs ++ rest)) :
    ∀ c ∈ cs, p c = true := by
  induction cs with
  | nil => simp
  | cons c cs ih =>
      simp only [runLength, List.cons_append, List.length_cons, List.takeWhile_cons] at h
      split at h
      · next hc =>
        have hcs := ih (by simpa [runLength] using h)
        simpa [hc] using hcs
      · simp at h

theorem runLength_le (p : Char → Bool) (cs : List Char) : runLength p cs ≤ cs.length :=
  (List.takeWhile_sublist p).length_le

end Runs

/-- Every word is a name, a keyword, a type or a truth value. -/
theorem wordKind_isWordKind (word : List Char) : isWordKind (wordKind word) = true := by
  unfold wordKind
  split
  · rfl
  · split
    · rfl
    · split <;> rfl

/-- The characters of a number after its first digit. -/
inductive IsNumberTail : List Char → Prop
  | whole {ds : List Char} (hds : ∀ c ∈ ds, isDigit c = true) : IsNumberTail ds
  | fraction {ds es : List Char} (hds : ∀ c ∈ ds, isDigit c = true)
      (hes : ∀ c ∈ es, isDigit c = true) (some : es ≠ []) : IsNumberTail (ds ++ '.' :: es)

theorem isNumberTail_of_numberLength {cs rest : List Char}
    (h : numberLength (cs ++ rest) = cs.length) : IsNumberTail cs := by
  obtain ⟨ds, es, rfl, hds, hes⟩ :
      ∃ ds es, cs = ds ++ es ∧ (∀ c ∈ ds, isDigit c = true) ∧ ∀ c ∈ es.head?, isDigit c = false :=
    ⟨cs.takeWhile isDigit, cs.dropWhile isDigit, List.takeWhile_append_dropWhile.symm,
      List.all_eq_true.mp List.all_takeWhile, fun c hc => by
        simpa [Option.mem_def.mp hc] using List.head?_dropWhile_not isDigit cs⟩
  cases es with
  | nil => exact .whole (by simpa using hds)
  | cons c es =>
      have hwhole : runLength isDigit (ds ++ (c :: (es ++ rest))) = ds.length :=
        runLength_append hds (by simpa using hes c (by simp))
      rw [List.append_assoc, List.cons_append] at h
      simp only [numberLength, hwhole, List.drop_left] at h
      split at h
      · next fraction heq =>
        obtain ⟨rfl, rfl⟩ := List.cons.inj heq
        simp only [List.length_append, List.length_cons] at h
        split at h
        · omega
        · next hplaces =>
          have hes : es.length ≤ runLength isDigit (es ++ rest) := by omega
          refine .fraction hds (forall_of_length_le_runLength hes) ?_
          rintro rfl
          exact hplaces (by simpa using h)
      · simp at h

/-- A number is read whole in front of anything that cannot lengthen it. -/
theorem IsNumberTail.numberLength_append {cs rest : List Char} (h : IsNumberTail cs)
    (hrest : ∀ c ∈ rest.head?, isDigit c = false ∧ c ≠ '.') :
    numberLength (cs ++ rest) = cs.length := by
  cases h with
  | whole hds =>
      have hrun := runLength_append hds fun c hc => (hrest c hc).1
      simp only [numberLength, hrun, List.drop_left]
      cases rest with
      | nil => rfl
      | cons c rest =>
          have hc : c ≠ '.' := (hrest c (by simp)).2
          split
          · next heq => exact absurd (List.cons.inj heq).1 hc
          · rfl
  | @fraction ds es hds hes hsome =>
      have hwhole : runLength isDigit (ds ++ '.' :: (es ++ rest)) = ds.length :=
        runLength_append hds (by simp; rfl)
      have hplaces := runLength_append hes fun c hc => (hrest c hc).1
      have hpos : es.length ≠ 0 := by simpa using hsome
      rw [List.append_assoc, List.cons_append]
      simp only [numberLength, hwhole, List.drop_left, hplaces, if_neg hpos, List.length_append,
        List.length_cons]
      omega

/-- A character that is no quote, no line end and no backslash stands for itself. -/
theorem stringLength_of_plain {c : Char} (cs : List Char) (hquote : c ≠ '"') (hline : c ≠ '\n')
    (hslash : c ≠ '\\') :
    stringLength (c :: cs) = ((stringLength cs).1 + 1, (stringLength cs).2) :=
  stringLength.eq_6 c cs hquote hline (fun h => absurd h hslash) fun _ _ h => absurd h hslash

/-- A backslash takes the character behind it along. -/
theorem stringLength_of_escape {c : Char} (cs : List Char) (hline : c ≠ '\n') :
    stringLength ('\\' :: c :: cs) = ((stringLength cs).1 + 2, (stringLength cs).2) := by
  rw [stringLength, if_neg hline]

/-- A literal that is closed has its closing quote at least. -/
theorem stringLength_ne_zero {cs : List Char} {n : Nat} (h : stringLength cs = (n, true)) :
    n ≠ 0 := by
  rintro rfl
  unfold stringLength at h
  split at h <;> (try split at h) <;> simp at h

/-- A string that is closed ends at its quote, whatever follows. -/
theorem stringLength_append {cs rest : List Char} (rest' : List Char)
    (h : stringLength (cs ++ rest) = (cs.length, true)) :
    stringLength (cs ++ rest') = (cs.length, true) := by
  induction cs using stringLength.induct with
  | case1 => exact absurd rfl (stringLength_ne_zero h)
  | case2 cs =>
      obtain rfl : cs = [] := by simpa [stringLength, eq_comm] using h
      rfl
  | case3 cs => simp [stringLength] at h
  | case4 =>
      cases rest with
      | nil => simp [stringLength] at h
      | cons c rest =>
          by_cases hc : c = '\n'
          · simp [stringLength, hc] at h
          · simp [stringLength_of_escape _ hc] at h
  | case5 cs => simp [stringLength] at h
  | case6 c cs hline _ _ _ ih =>
      simp only [List.cons_append, stringLength_of_escape _ hline, List.length_cons] at h ⊢
      obtain ⟨hlen, hclosed⟩ := Prod.ext_iff.mp h
      rw [ih (Prod.ext (Nat.add_right_cancel hlen) hclosed)]
  | case7 c cs hquote hline hlast hescape _ _ _ ih =>
      have hslash : c ≠ '\\' := fun hc => by
        cases cs with
        | nil => exact hlast hc rfl
        | cons c' cs' => exact hescape c' cs' hc rfl
      simp only [List.cons_append, stringLength_of_plain _ hquote hline hslash,
        List.length_cons] at h ⊢
      obtain ⟨hlen, hclosed⟩ := Prod.ext_iff.mp h
      rw [ih (Prod.ext (Nat.add_right_cancel hlen) hclosed)]

section Branches

variable {kind : Token.Kind} {c : Char} {cs rest rest' : List Char}

/-- A word that was read up to its end is read the same way in front of what does not lengthen
it. -/
theorem word_append (h : word c (cs ++ rest) = token kind cs.length)
    (hrest : Separates kind rest') : word c (cs ++ rest') = token kind cs.length := by
  simp only [word, token, Reading.mk.injEq, Except.ok.injEq] at h
  obtain ⟨hkind, hlen⟩ := h
  rw [hlen, List.take_left] at hkind
  have hword : isWordKind kind = true := hkind ▸ wordKind_isWordKind _
  have hrun := runLength_append (forall_of_length_le_runLength (Nat.le_of_eq hlen.symm))
    fun c hc => (hrest c hc).1 (.inl hword)
  simp only [word, hrun, List.take_left, hkind]

theorem number_kind {n : Nat} (h : number cs = token kind n) : kind = .number := by
  simp only [number] at h
  split at h
  · split at h
    · cases h
    · cases h; rfl
  · cases h; rfl

theorem number_append (h : number (cs ++ rest) = token kind cs.length)
    (hrest : Separates kind rest') : number (cs ++ rest') = token kind cs.length := by
  have hnumber : kind = .number ∧ numberLength (cs ++ rest) = cs.length := by
    simp only [number] at h
    split at h
    · split at h
      · simp [mistake, token] at h
      · simpa [token, eq_comm] using h
    · simpa [token, eq_comm] using h
  obtain ⟨rfl, hlen⟩ := hnumber
  have hchar : ∀ c ∈ rest'.head?, isWordChar c = false ∧ c ≠ '.' := fun c hc =>
    ⟨(hrest c hc).1 (.inr rfl), (hrest c hc).2.1 rfl⟩
  have hlen' : numberLength (cs ++ rest') = cs.length :=
    (isNumberTail_of_numberLength hlen).numberLength_append fun c hc => by
      have hc := hchar c hc
      simp only [isWordChar, Bool.or_eq_false_iff] at hc
      exact ⟨hc.1.2, hc.2⟩
  simp only [number, hlen', List.drop_left]
  cases rest' with
  | nil => rfl
  | cons c rest' =>
      have hc := (hchar c (by simp)).1
      simp only [isWordChar, Bool.or_eq_false_iff] at hc
      simp [hc.1]

theorem string_kind {n : Nat} (h : string cs = token kind n) : kind = .string := by
  simp only [string] at h
  split at h <;> cases h
  rfl

/-- A literal ends with its closing quote, whatever comes behind it. -/
theorem string_append (h : string (cs ++ rest) = token kind cs.length) (rest' : List Char) :
    string (cs ++ rest') = token kind cs.length := by
  have hstring : kind = .string ∧ stringLength (cs ++ rest) = (cs.length, true) := by
    simp only [string] at h
    split at h
    · next hclosed =>
      refine ⟨by simpa [token, eq_comm] using congrArg Reading.verdict h, ?_⟩
      exact Prod.ext (by simpa [token] using congrArg Reading.more h) hclosed
    · simp [mistake, token] at h
  obtain ⟨rfl, hlen⟩ := hstring
  simp only [string, stringLength_append rest' hlen, if_true]

theorem slash_append (h : slash (cs ++ rest) = token kind cs.length)
    (hrest : Separates kind rest') : slash (cs ++ rest') = token kind cs.length := by
  cases cs with
  | nil =>
      unfold slash at h
      split at h
      · simp [token] at h
      · obtain rfl : kind = .arithOp := by simpa [token, eq_comm] using h
        unfold slash
        split
        · next heq =>
          have hhead := (hrest '/' (by simpa using congrArg List.head? heq)).2.2.2 (.inl rfl)
          simp at hhead
        · rfl
  | cons c cs =>
      rw [List.cons_append] at h
      unfold slash at h
      split at h
      · next heq =>
        obtain ⟨rfl, rfl⟩ := List.cons.inj heq
        simp only [token, List.length_cons, Reading.mk.injEq, Except.ok.injEq] at h
        obtain ⟨rfl, hlen⟩ := h
        have hline : cs.length ≤ runLength (· != '\n') (cs ++ rest) := by omega
        have hrun := runLength_append (forall_of_length_le_runLength hline) fun c hc => by
          simpa using (hrest c hc).2.2.1 rfl
        simp only [List.cons_append, slash, hrun, List.length_cons, Nat.add_comm]
      · simp [token] at h

/-- A sign of one or two characters is read again where no second character joins it. -/
theorem pair_append {second : Char} {together : Token.Kind} {alone : Reading}
    (h : pair second together alone (cs ++ rest) = token kind cs.length)
    (hrest : alone = token kind 0 → ∀ c ∈ rest'.head?, c ≠ second) :
    pair second together alone (cs ++ rest') = token kind cs.length := by
  cases cs with
  | nil =>
      have hkind : alone = token kind 0 := by
        cases rest with
        | nil => exact h
        | cons c rest =>
            simp only [List.nil_append, pair] at h
            split at h
            · simp [token] at h
            · exact h
      cases rest' with
      | nil => exact hkind
      | cons c rest' =>
          have hc : c ≠ second := hrest hkind c (by simp)
          simp [pair, hc, hkind]
  | cons c cs => exact h

theorem pair_kind {second : Char} {together : Token.Kind} {alone : Reading} {n : Nat}
    (h : pair second together alone cs = token kind n) :
    kind = together ∨ alone.verdict = .ok kind := by
  unfold pair at h
  split at h
  · split at h
    · exact .inl (by simpa [token, eq_comm] using congrArg Reading.verdict h)
    · exact .inr (congrArg Reading.verdict h)
  · exact .inr (congrArg Reading.verdict h)

theorem slash_kind {n : Nat} (h : slash cs = token kind n) : kind = .comment ∨ kind = .arithOp := by
  unfold slash at h
  split at h
  · exact .inl (by simpa [token, eq_comm] using congrArg Reading.verdict h)
  · exact .inr (by simpa [token, eq_comm] using congrArg Reading.verdict h)

/-- No sign of one character is a word. -/
theorem single?_kind (h : single? c = some kind) : isWordKind kind = false := by
  unfold single? at h
  split at h <;> cases h <;> rfl

/-- No symbol is a word. -/
theorem symbol_kind {n : Nat} (h : symbol c cs = token kind n) : isWordKind kind = false := by
  have hpair {second : Char} {together : Token.Kind} {alone : Reading}
      (htogether : isWordKind together = false)
      (halone : ∀ k, alone.verdict = .ok k → isWordKind k = false)
      (hread : pair second together alone cs = token kind n) : isWordKind kind = false := by
    rcases pair_kind hread with rfl | hverdict
    · exact htogether
    · exact halone kind hverdict
  unfold symbol at h
  split at h
  iterate 4 exact hpair rfl (fun k hk => by cases hk; rfl) h
  iterate 2 exact hpair rfl (fun k hk => by cases hk) h
  · rcases slash_kind h with rfl | rfl <;> rfl
  · split at h
    · next hsingle =>
      cases h
      exact single?_kind hsingle
    · cases h

/-- A sign that was read up to its end is read the same way in front of what does not lengthen
it. -/
theorem symbol_append (h : symbol c (cs ++ rest) = token kind cs.length)
    (hrest : Separates kind rest') : symbol c (cs ++ rest') = token kind cs.length := by
  have hoperator {k : Token.Kind} (hk : k = .arithOp ∨ k = .compareOp ∨ k = .assign)
      (he : token k 0 = token kind 0) : ∀ c ∈ rest'.head?, c ∉ ['=', '>', '/'] := by
    obtain rfl : k = kind := by simpa [token] using he
    exact fun c hc => (hrest c hc).2.2.2 hk
  unfold symbol at h ⊢
  split
  · exact pair_append h fun he c hc => by
      have := hoperator (.inl rfl) he c hc
      simp at this
      exact this.2.1
  · exact pair_append h fun he c hc => by
      have := hoperator (.inr (.inl rfl)) he c hc
      simp at this
      exact this.1
  · exact pair_append h fun he c hc => by
      have := hoperator (.inr (.inl rfl)) he c hc
      simp at this
      exact this.1
  · exact pair_append h fun he c hc => by
      have := hoperator (.inr (.inr rfl)) he c hc
      simp at this
      exact this.1
  · exact pair_append h fun he => by simp [mistake, token] at he
  · exact pair_append h fun he => by simp [mistake, token] at he
  · exact slash_append h hrest
  · split at h <;> first | contradiction | exact h

end Branches

/-- A word tells its kind. -/
theorem Stands.wordKind_eq {kind : Token.Kind} {text : List Char} (h : Stands kind text [])
    (hkind : isWordKind kind = true) : wordKind text = kind := by
  obtain ⟨c, cs, rfl, -, hread⟩ := h
  rw [List.append_nil] at hread
  unfold read at hread
  split at hread
  · simp only [word, token, Reading.mk.injEq, Except.ok.injEq] at hread
    rw [← hread.1, hread.2, List.take_length]
  · split at hread
    · rw [number_kind hread] at hkind
      contradiction
    · split at hread
      · rw [string_kind hread] at hkind
        contradiction
      · simp [symbol_kind hread] at hkind

/-- A lexeme does not change when something else that keeps apart from it follows. -/
theorem Stands.follow {kind : Token.Kind} {text rest rest' : List Char}
    (h : Stands kind text rest) (hrest : Separates kind rest') : Stands kind text rest' := by
  obtain ⟨c, cs, rfl, hblank, hread⟩ := h
  refine ⟨c, cs, rfl, hblank, ?_⟩
  unfold read at hread ⊢
  split at hread
  · next hc => rw [if_pos hc, word_append hread hrest]
  · next hc =>
    rw [if_neg hc]
    split at hread
    · next hd => rw [if_pos hd, number_append hread hrest]
    · next hd =>
      rw [if_neg hd]
      split at hread
      · next hq => rw [if_pos hq, string_append hread]
      · next hq => rw [if_neg hq, symbol_append hread hrest]

theorem numberLength_le (cs : List Char) : numberLength cs ≤ cs.length := by
  have hwhole := runLength_le isDigit cs
  simp only [numberLength]
  split
  · next fraction heq =>
    have hfraction := runLength_le isDigit fraction
    have hlen := congrArg List.length heq
    rw [List.length_drop, List.length_cons] at hlen
    split <;> omega
  · exact hwhole

theorem stringLength_le (cs : List Char) : (stringLength cs).1 ≤ cs.length := by
  induction cs using stringLength.induct with
  | case1 | case2 | case3 | case4 | case5 => simp [stringLength]
  | case6 c cs hline _ _ _ ih =>
      rw [stringLength_of_escape _ hline]
      simp only [List.length_cons]
      omega
  | case7 c cs hquote hline hlast hescape _ _ _ ih =>
      rw [stringLength.eq_6 _ _ hquote hline hlast hescape]
      simp only [List.length_cons]
      omega

theorem number_more_le (cs : List Char) : (number cs).more ≤ cs.length := by
  have hnumber := numberLength_le cs
  simp only [number]
  split
  · next c rest heq =>
    have hrest := runLength_le isWordChar rest
    have hlen := congrArg List.length heq
    rw [List.length_drop, List.length_cons] at hlen
    split
    · simp only [mistake]
      omega
    · exact hnumber
  · exact hnumber

theorem slash_more_le (cs : List Char) : (slash cs).more ≤ cs.length := by
  unfold slash
  split
  · next cs =>
    have hrun := runLength_le (· != '\n') cs
    simp only [token, List.length_cons]
    omega
  · exact Nat.zero_le _

theorem pair_more_le {second : Char} {together : Token.Kind} {alone : Reading}
    (halone : alone.more = 0) (cs : List Char) :
    (pair second together alone cs).more ≤ cs.length := by
  unfold pair
  split
  · split
    · simp [token]
    · simp [halone]
  · simp [halone]

/-- A sign takes no more characters than there are. -/
theorem symbol_more_le (c : Char) (cs : List Char) : (symbol c cs).more ≤ cs.length := by
  unfold symbol
  split
  iterate 6 exact pair_more_le rfl cs
  · exact slash_more_le cs
  · split <;> exact Nat.zero_le _

/-- A lexeme takes no more characters than there are. -/
theorem read_more_le (c : Char) (cs : List Char) : (read c cs).more ≤ cs.length := by
  unfold read
  split
  · exact runLength_le isWordChar cs
  · split
    · exact number_more_le cs
    · split
      · have hstring := stringLength_le cs
        simp only [string]
        split <;> exact hstring
      · exact symbol_more_le c cs

end Lexeme

namespace TokenStream

open Lexeme Text

theorem itemsFrom_nil (offset : Nat) : itemsFrom offset [] = [] := by
  rw [itemsFrom]
  rfl

theorem itemsFrom_eq (offset : Nat) (cs : List Char) :
    itemsFrom offset cs = match read? offset cs with
      | none => []
      | some (item, offset', cs') => item :: itemsFrom offset' cs' := by
  rw [itemsFrom]
  split <;> simp_all

/-- A blank moves the place of what comes behind it, and gives no item. -/
theorem itemsFrom_of_blank {c : Char} (hc : isBlank c = true) (offset : Nat) (cs : List Char) :
    itemsFrom offset (c :: cs) = itemsFrom (offset + c.utf8Size) cs := by
  have hread : read? offset (c :: cs) = read? (offset + c.utf8Size) cs := by
    simp [read?, dropBlank, hc, Nat.add_assoc]
  rw [itemsFrom_eq, itemsFrom_eq, hread]

/-- A lexeme that stands in front of the rest is the first item, and the rest is read behind it. -/
theorem itemsFrom_of_stands {kind : Token.Kind} {text rest : List Char}
    (h : Stands kind text rest) (offset : Nat) :
    itemsFrom offset (text ++ rest) =
      .ok ⟨kind, .ofList text, .ofRange offset (offset + byteLength text)⟩ ::
        itemsFrom (offset + byteLength text) rest := by
  obtain ⟨c, cs, rfl, hblank, hread⟩ := h
  rw [itemsFrom_eq]
  simp [read?, dropBlank, hblank, itemAt, hread, token]

/-- A token is the lexeme that it is made of, before what is left of the text. -/
theorem stands_itemAt {t : Token} {offset : Nat} {c : Char} {cs : List Char}
    (hc : isBlank c = false) (h : itemAt offset c cs = .ok t) :
    Stands t.kind (c :: cs.take (read c cs).more) (cs.drop (read c cs).more) ∧
      t.text = .ofList (c :: cs.take (read c cs).more) := by
  simp only [itemAt] at h
  split at h
  · next kind hverdict =>
    obtain rfl := Except.ok.inj h
    have hlen := read_more_le c cs
    refine ⟨⟨c, cs.take (read c cs).more, rfl, hc, ?_⟩, rfl⟩
    rw [List.take_append_drop, List.length_take, Nat.min_eq_left hlen, token, ← hverdict]
  · contradiction

/-- A token that was read is a lexeme that stands in front of something. -/
theorem stands_of_itemAt {t : Token} {offset : Nat} {c : Char} {cs : List Char}
    (hc : isBlank c = false) (h : itemAt offset c cs = .ok t) :
    ∃ rest, Stands t.kind t.text.toList rest := by
  obtain ⟨hstands, htext⟩ := stands_itemAt hc h
  rw [htext, String.toList_ofList]
  exact ⟨_, hstands⟩

/-- Every token of a text is a lexeme of its kind where it stands. -/
theorem stands_of_mem_items {t : Token} {offset : Nat} {cs : List Char}
    (h : .ok t ∈ itemsFrom offset cs) : ∃ rest, Stands t.kind t.text.toList rest := by
  induction offset, cs using itemsFrom.induct with
  | case1 offset cs hnone =>
      rw [itemsFrom_eq, hnone] at h
      contradiction
  | case2 offset cs item offset' cs' hsome ih =>
      rw [itemsFrom_eq, hsome] at h
      rcases List.mem_cons.mp h with h | h
      · unfold read? at hsome
        split at hsome
        · contradiction
        · next c ds hd =>
          have hc : isBlank c = false := by
            rw [dropBlank] at hd
            simpa [hd] using List.head?_dropWhile_not isBlank cs
          simp only [Option.some.injEq, Prod.mk.injEq] at hsome
          exact stands_of_itemAt hc (hsome.1.trans h.symm)
      · exact ih h

end TokenStream

/-- The text is one token of the kind and nothing else. -/
def Token.Spelled (kind : Token.Kind) (text : String) : Prop :=
  ∃ span, (TokenStream.ofSource text).items = [.ok ⟨kind, text, span⟩]

/-- A text spells a token of a kind where it stands as its lexeme with nothing behind it. -/
theorem Token.spelled_iff {kind : Token.Kind} {text : String} :
    Token.Spelled kind text ↔ Lexeme.Stands kind text.toList [] := by
  constructor
  · rintro ⟨span, h⟩
    have hmem : .ok ⟨kind, text, span⟩ ∈ (TokenStream.ofSource text).items := by simp [h]
    obtain ⟨rest, hstands⟩ := TokenStream.stands_of_mem_items hmem
    exact hstands.follow (Lexeme.separates_nil kind)
  · intro h
    have hitems := TokenStream.itemsFrom_of_stands h 0
    rw [List.append_nil, TokenStream.itemsFrom_nil, String.ofList_toList] at hitems
    exact ⟨_, hitems⟩

/-- The tokens that a source is read to are each a token on their own. -/
theorem Token.spelled_of_mem_items {t : Token} {source : String}
    (h : .ok t ∈ (TokenStream.ofSource source).items) : Spelled t.kind t.text := by
  obtain ⟨rest, hstands⟩ := TokenStream.stands_of_mem_items h
  exact spelled_iff.mpr (hstands.follow (Lexeme.separates_nil t.kind))

end Clausal
