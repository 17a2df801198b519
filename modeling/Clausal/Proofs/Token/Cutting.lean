import Clausal.Proofs.Token.Spacing

/-!
Texts that are cut between tokens. What a lexeme is depends on the character after it and on nothing
further on, so where a text is read without errors, the piece from one of its tokens to a later one
is read to the tokens that stand on it in the text, wherever the piece stands.
-/

namespace Clausal

namespace Lexeme

variable {kind : Token.Kind} {c d : Char} {cs rest : List Char}

theorem of_runLength {p : Char → Bool} (h : runLength p (cs ++ d :: rest) = cs.length) :
    p d = false := by
  cases hd : p d with
  | false => rfl
  | true =>
      have hinside : ∀ c ∈ cs ++ [d], p c = true := by
        simpa [or_imp, forall_and, hd] using forall_of_length_le_runLength (Nat.le_of_eq h.symm)
      have hlonger := length_le_runLength hinside (List.prefix_append (cs ++ [d]) rest)
      rw [List.append_assoc, List.singleton_append, h, List.length_append,
        List.length_singleton] at hlonger
      omega

/-- A number ends before a character that would go on with it. -/
theorem not_isDigit_of_numberLength (h : numberLength (cs ++ d :: rest) = cs.length) :
    isDigit d = false := by
  cases hd : isDigit d with
  | false => rfl
  | true =>
      have hlonger : IsNumberTail (cs ++ [d]) := by
        cases isNumberTail_of_numberLength h with
        | whole hds => exact .whole (by simpa [or_imp, forall_and, hd] using hds)
        | @fraction ds es hds hes hsome =>
            rw [List.append_assoc, List.cons_append]
            exact .fraction hds (by simpa [or_imp, forall_and, hd] using hes) (by simp)
      have hle := hlonger.length_le (List.prefix_append (cs ++ [d]) rest)
      rw [List.append_assoc, List.singleton_append, h, List.length_append,
        List.length_singleton] at hle
      omega

theorem separates_of_word (hkind : isWordKind kind = true) (hd : isWordChar d = false) :
    Separates kind (d :: rest) := by
  intro d' hd'
  obtain rfl : d = d' := by simpa using hd'
  cases kind <;> first | contradiction | simp [hd]

theorem separates_of_number (hd : isWordChar d = false) (hpoint : d ≠ '.') :
    Separates .number (d :: rest) := by
  intro d' hd'
  obtain rfl : d = d' := by simpa using hd'
  simp [hd, hpoint]

theorem separates_of_comment (hd : d = '\n') : Separates .comment (d :: rest) := by
  intro d' hd'
  obtain rfl : d = d' := by simpa using hd'
  simp [hd, isWordKind]

theorem word_near (h : word c (cs ++ d :: rest) = token kind cs.length) (rest' : List Char) :
    word c (cs ++ d :: rest') = token kind cs.length := by
  refine word_append h ?_
  simp only [word, token, Reading.mk.injEq, Except.ok.injEq] at h
  exact separates_of_word (h.1 ▸ wordKind_isWordKind _) (of_runLength h.2)

theorem number_near (h : number (cs ++ d :: rest) = token kind cs.length) (hpoint : d ≠ '.')
    (rest' : List Char) : number (cs ++ d :: rest') = token kind cs.length := by
  obtain rfl := number_kind h
  refine number_append h (separates_of_number ?_ hpoint)
  have hlength : numberLength (cs ++ d :: rest) = cs.length ∧ isWordStart d = false := by
    simp only [number] at h
    split at h
    · next c rest' hdrop =>
      split at h
      · simp [mistake, token] at h
      · next hstart =>
        have hlength : numberLength (cs ++ d :: rest) = cs.length := congrArg Reading.more h
        rw [hlength, List.drop_left] at hdrop
        exact ⟨hlength, by simpa [(List.cons.inj hdrop).1] using hstart⟩
    · next hdrop =>
      have hlength : numberLength (cs ++ d :: rest) = cs.length := congrArg Reading.more h
      rw [hlength, List.drop_left] at hdrop
      contradiction
  rw [isWordChar, hlength.2, not_isDigit_of_numberLength hlength.1]
  rfl

theorem pair_near {second : Char} {together : Token.Kind} {alone : Reading} (rest' : List Char) :
    pair second together alone (cs ++ d :: rest) =
      pair second together alone (cs ++ d :: rest') := by
  cases cs <;> rfl

theorem slash_near (h : slash (cs ++ d :: rest) = token kind cs.length) (rest' : List Char) :
    slash (cs ++ d :: rest') = token kind cs.length := by
  cases cs with
  | nil =>
      by_cases hd : d = '/'
      · subst hd
        simp [slash, token] at h
      · have hslash (rest : List Char) : slash (d :: rest) = token .arithOp 0 := by
          unfold slash
          split
          · next heq => exact absurd (List.cons.inj heq).1 hd
          · rfl
        exact (hslash rest').trans ((hslash rest).symm.trans h)
  | cons c cs =>
      refine slash_append h ?_
      rw [List.cons_append] at h
      unfold slash at h
      split at h
      · next heq =>
        obtain ⟨rfl, rfl⟩ := List.cons.inj heq
        simp only [token, List.length_cons, Reading.mk.injEq, Except.ok.injEq] at h
        obtain ⟨rfl, hlen⟩ := h
        have hrun : runLength (· != '\n') (cs ++ d :: rest) = cs.length := by omega
        exact separates_of_comment (by simpa using of_runLength hrun)
      · simp [token] at h

theorem symbol_near (h : symbol c (cs ++ d :: rest) = token kind cs.length) (rest' : List Char) :
    symbol c (cs ++ d :: rest') = token kind cs.length := by
  unfold symbol at h ⊢
  split
  iterate 6 exact (pair_near rest').symm.trans h
  · exact slash_near h rest'
  · split at h <;> first | contradiction | exact h

/-- A lexeme does not change when the text is changed after the character that follows it. -/
theorem Stands.near {text : List Char} (h : Stands kind text (d :: rest))
    (hpoint : kind = .number → d ≠ '.') (rest' : List Char) : Stands kind text (d :: rest') := by
  obtain ⟨c, cs, rfl, hblank, hread⟩ := h
  refine ⟨c, cs, rfl, hblank, ?_⟩
  unfold read at hread ⊢
  split at hread
  · next hc => rw [if_pos hc, word_near hread]
  · next hc =>
    rw [if_neg hc]
    split at hread
    · next hd => rw [if_pos hd, number_near hread (hpoint (number_kind hread))]
    · next hd =>
      rw [if_neg hd]
      split at hread
      · next hq => rw [if_pos hq, string_append hread]
      · next hq => rw [if_neg hq, symbol_near hread]

end Lexeme

namespace TokenStream

open Lexeme Text

variable {offset : Nat} {cs : List Char} {t : Token}

/-- Where the first item of a text is a token, blanks stand before it and the other items stand
after it. -/
theorem exists_of_itemsFrom_cons {more : List Token.Item}
    (h : itemsFrom offset cs = .ok t :: more) :
    ∃ gap piece rest, cs = gap ++ (piece ++ rest) ∧ gap.all isBlank = true ∧
      t.text = .ofList piece ∧ Stands t.kind piece rest ∧
      t.span = .ofRange (offset + byteLength gap) (offset + byteLength gap + byteLength piece) ∧
      itemsFrom (offset + byteLength gap + byteLength piece) rest = more := by
  have hsplit : cs = cs.takeWhile isBlank ++ cs.dropWhile isBlank :=
    List.takeWhile_append_dropWhile.symm
  rw [itemsFrom_takeWhile_isBlank] at h
  generalize hgap : cs.takeWhile isBlank = gap at h hsplit
  cases hrest : cs.dropWhile isBlank with
  | nil =>
      rw [hrest, itemsFrom_nil] at h
      contradiction
  | cons c ds =>
      have hc : isBlank c = false := by
        simpa [hrest] using List.head?_dropWhile_not isBlank cs
      rw [hrest, itemsFrom_cons hc] at h
      obtain ⟨hitem, hmore⟩ := List.cons.inj h
      have hspan := (shows_itemAt (offset + byteLength gap) c ds).span
      rw [hitem] at hspan
      obtain ⟨hstands, htext⟩ := stands_itemAt hc hitem
      refine ⟨gap, c :: ds.take (read c ds).more, ds.drop (read c ds).more, ?_,
        hgap ▸ List.all_takeWhile, htext, hstands, hspan, hmore⟩
      rw [List.cons_append, List.take_append_drop, ← hrest]
      exact hsplit

/-- After a number no point stands where everything is a token. -/
theorem ne_point_of_itemsFrom {rest : List Char} {ts : List Token} {d : Char}
    (h : itemsFrom offset (d :: rest) = ts.map .ok) : d ≠ '.' := by
  rintro rfl
  rw [itemsFrom_cons rfl] at h
  cases ts with
  | nil => contradiction
  | cons t ts =>
      have hitem : itemAt offset '.' rest = .ok t := (List.cons.inj h).1
      cases hitem

theorem bareItems_of_token {piece rest : List Char} (h : Stands t.kind piece rest)
    (htext : t.text = .ofList piece) :
    bareItems (piece ++ rest) = .ok (t.moved fun _ => 0) :: bareItems rest := by
  rw [bareItems_of_stands h, ← htext]
  rfl

/-- The text from one token to a later one, with what stands before and after it. Where it is
followed by what goes on with none of its lexemes it is read as in its place. The induction is on
the tokens, of which each but the last has the same character after it as before. -/
theorem exists_cut {core after : List Token} (hcore : core ≠ [])
    (h : itemsFrom offset cs = (core ++ after).map .ok) :
    ∃ gap text rest, cs = gap ++ (text ++ rest) ∧ gap.all isBlank = true ∧ text ≠ [] ∧
      (core.head hcore).span.start = clampOffset (offset + byteLength gap) ∧
      (core.getLast hcore).span.stop =
        clampOffset (offset + byteLength gap + byteLength text) ∧
      ∀ tail, Separates (core.getLast hcore).kind tail →
        bareItems (text ++ tail) =
          (core.map (·.moved fun _ => 0)).map .ok ++ bareItems tail := by
  induction core generalizing offset cs with
  | nil => contradiction
  | cons t core ih =>
      obtain ⟨gap, piece, rest, rfl, hgap, htext, hstands, hspan, hmore⟩ :=
        exists_of_itemsFrom_cons h
      have hpiece : piece ≠ [] := by
        obtain ⟨c, cs, rfl, -⟩ := hstands
        exact List.cons_ne_nil c cs
      have hstart : t.span.start = clampOffset (offset + byteLength gap) :=
        congrArg Span.start hspan
      cases core with
      | nil =>
          refine ⟨gap, piece, rest, rfl, hgap, hpiece, hstart, congrArg Span.stop hspan,
            fun tail htail => ?_⟩
          exact bareItems_of_token (hstands.follow htail) htext
      | cons t' core =>
          obtain ⟨gap', text', rest', rfl, hgap', htext', -, hstop, hitems⟩ :=
            ih (List.cons_ne_nil t' core) hmore
          refine ⟨gap, piece ++ (gap' ++ text'), rest', by simp, hgap, by simp [hpiece], hstart, ?_,
            fun tail htail => ?_⟩
          · rw [List.getLast_cons (List.cons_ne_nil t' core), hstop, byteLength_append,
              byteLength_append]
            simp only [Nat.add_assoc]
          · obtain ⟨d, ds, hd⟩ : ∃ d ds, gap' ++ text' = d :: ds :=
              List.exists_cons_of_ne_nil (by simp [htext'])
            have hnext (tail : List Char) : gap' ++ (text' ++ tail) = d :: (ds ++ tail) := by
              rw [← List.append_assoc, hd, List.cons_append]
            rw [hnext] at hstands hmore
            have hcut := hstands.near (fun _ => ne_point_of_itemsFrom hmore) (ds ++ tail)
            rw [← hnext] at hcut
            rw [List.getLast_cons (List.cons_ne_nil t' core)] at htail
            rw [List.append_assoc, List.append_assoc, bareItems_of_token hcut htext,
              bareItems_of_blank hgap', hitems tail htail]
            rfl

/-- Further on in a text, the items that are left are those of what is left of it. -/
theorem exists_later {before later : List Token}
    (h : itemsFrom offset cs = (before ++ later).map .ok) :
    ∃ front rest, cs = front ++ rest ∧
      itemsFrom (offset + byteLength front) rest = later.map .ok := by
  induction before generalizing offset cs with
  | nil => exact ⟨[], cs, rfl, h⟩
  | cons t before ih =>
      obtain ⟨gap, piece, rest, rfl, -, -, -, -, hmore⟩ := exists_of_itemsFrom_cons h
      obtain ⟨front, rest, rfl, hlater⟩ := ih hmore
      refine ⟨gap ++ (piece ++ front), rest, by simp, ?_⟩
      rw [byteLength_append, byteLength_append, ← Nat.add_assoc, ← Nat.add_assoc]
      exact hlater

/-- The source from one of its tokens to a later one. With a semicolon after it, it is read to these
tokens and the semicolon, places aside. -/
theorem exists_slice_between {source : String} {before core after : List Token}
    (hsize : source.utf8ByteSize ≤ maxOffset) (hcore : core ≠ [])
    (hitems : (ofSource source).items = (before ++ (core ++ after)).map .ok)
    (hlast : (core.getLast hcore).kind ≠ .comment) :
    ∃ piece, slice? source.toList (core.head hcore).span.start (core.getLast hcore).span.stop =
        some piece ∧
      ∃ ts : List Token, (ofSource (.ofList (piece ++ [';']))).items = ts.map .ok ∧
        ts.map (fun t => (t.kind, t.text)) =
          core.map (fun t => (t.kind, t.text)) ++ [(.semicolon, ";")] := by
  have hitems : itemsFrom 0 source.toList = (before ++ (core ++ after)).map .ok := hitems
  obtain ⟨front, cs, hfront, hlater⟩ := exists_later hitems
  obtain ⟨gap, piece, rest, rfl, -, -, hstart, hstop, hbare⟩ := exists_cut hcore hlater
  have htext : source.toList = front ++ gap ++ (piece ++ rest) := by rw [hfront, List.append_assoc]
  have hlength := byteLength_toList source
  rw [htext, byteLength_append, byteLength_append, byteLength_append] at hlength
  have hslice := slice?_append (front ++ gap) piece rest
  rw [← htext, byteLength_append] at hslice
  rw [Nat.zero_add] at hstart hstop
  rw [clampOffset_of_le (by omega)] at hstart hstop
  refine ⟨piece, by rw [hstart, hstop, hslice], ?_⟩
  have hstops : Separates (core.getLast hcore).kind [';'] := by
    intro c hc
    obtain rfl : ';' = c := by simpa using hc
    exact ⟨fun _ => rfl, by simp, fun h => absurd h hlast, by simp⟩
  have hsemicolon : bareItems [';'] = [.ok ⟨.semicolon, ";", ⟨0, 0⟩⟩] := by decide +kernel
  have hread : bareItems (String.ofList (piece ++ [';'])).toList =
      (core.map (Token.moved fun _ => 0) ++ [(⟨.semicolon, ";", ⟨0, 0⟩⟩ : Token)]).map .ok := by
    rw [String.toList_ofList, hbare [';'] hstops, hsemicolon, List.map_append]
    rfl
  obtain ⟨ts, hitems, hts⟩ := exists_tokens_of_bareItems hread
  refine ⟨ts, hitems, ?_⟩
  have hshapes := congrArg (List.map fun t : Token => (t.kind, t.text)) hts
  simpa [List.map_map, Function.comp_def, Token.moved] using hshapes.symm

end TokenStream

end Clausal
