import FirmwareLift.Proofs.Json.Token

/-!
# Written JSON is read back

A value goes through its tokens: its lines are read as these tokens at any depth, and the tokens make
up the value again inside any open arrays and objects.
-/

namespace FirmwareLift.Json

mutual

def tokens : Json → List Token
  | null => [.null]
  | bool value => [.bool value]
  | natural value => [.natural value]
  | number literal => [.number literal]
  | string text => [.string text]
  | array [] => [.openArray, .closeArray]
  | array (item :: rest) => .openArray :: (item.tokens ++ itemTokens rest ++ [.closeArray])
  | object [] => [.openObject, .closeObject]
  | object ((name, value) :: rest) =>
    .openObject :: .string name :: .colon ::
      (value.tokens ++ fieldTokens rest ++ [.closeObject])

def itemTokens : List Json → List Token
  | [] => []
  | item :: rest => .comma :: (item.tokens ++ itemTokens rest)

def fieldTokens : List (Option String × Json) → List Token
  | [] => []
  | (name, value) :: rest => .comma :: .string name :: .colon :: (value.tokens ++ fieldTokens rest)

end

mutual

/-- All numbers are whole, and every string and every name denotes a text. -/
def Plain : Json → Prop
  | null | bool _ | natural _ => True
  | number _ => False
  | string text => text.isSome
  | array items => PlainItems items
  | object fields => PlainFields fields

def PlainItems : List Json → Prop
  | [] => True
  | item :: rest => item.Plain ∧ PlainItems rest

def PlainFields : List (Option String × Json) → Prop
  | [] => True
  | (name, value) :: rest => name.isSome ∧ value.Plain ∧ PlainFields rest

end

/-! ## From the lines to the tokens -/

theorem endsNumber_newline (depth : Nat) (text : List Char) :
    Token.EndsNumber (newline depth ++ text) := by
  intro c hc
  cases hc
  exact .inr rfl

theorem endsNumber_itemLines (depth outer : Nat) (items : List Json) (text : List Char) :
    Token.EndsNumber (itemLines depth items ++ (newline outer ++ text)) := by
  cases items with
  | nil => exact endsNumber_newline outer text
  | cons item rest =>
      intro c hc
      cases hc
      exact .inl rfl

theorem endsNumber_fieldLines (depth outer : Nat) (fields : List (Option String × Json))
    (text : List Char) :
    Token.EndsNumber (fieldLines depth fields ++ (newline outer ++ text)) := by
  cases fields with
  | nil => exact endsNumber_newline outer text
  | cons field rest =>
      intro c hc
      cases hc
      exact .inl rfl

mutual

theorem scan?_lines {depth : Nat} {rest : List Char} :
    (json : Json) → json.Plain → Token.EndsNumber rest →
      Token.scan? (json.lines depth ++ rest) = (Token.scan? rest).map (json.tokens ++ ·)
  | null, _, _ => by
      rw [lines, tokens]
      simp only [List.cons_append, List.nil_append]
      rw [Token.scan?]
  | bool true, _, _ => by
      rw [lines, tokens]
      simp only [List.cons_append, List.nil_append]
      rw [Token.scan?]
  | bool false, _, _ => by
      rw [lines, tokens]
      simp only [List.cons_append, List.nil_append]
      rw [Token.scan?]
  | natural value, _, h => Token.scan?_toDigits value h
  | string (some text), _, _ => Token.scan?_stringText text rest
  | array [], _, _ => by
      rw [lines, tokens]
      simp only [List.cons_append, List.nil_append]
      rw [Token.scan?, Token.scan?, Option.map_map]
      rfl
  | array (item :: items), h, _ => by
      obtain ⟨hitem, hitems⟩ := h
      rw [lines, tokens]
      simp only [List.cons_append, List.append_assoc, List.nil_append]
      rw [Token.scan?, Token.scan?_newline,
        scan?_lines item hitem (endsNumber_itemLines _ _ _ _), scan?_itemLines items hitems,
        Token.scan?_newline, Token.scan?]
      simp [Function.comp_def]
  | object [], _, _ => by
      rw [lines, tokens]
      simp only [List.cons_append, List.nil_append]
      rw [Token.scan?, Token.scan?, Option.map_map]
      rfl
  | object ((some name, value) :: fields), h, _ => by
      obtain ⟨-, hvalue, hfields⟩ := h
      rw [lines, tokens]
      simp only [List.cons_append, List.append_assoc, List.nil_append]
      rw [Token.scan?, Token.scan?_newline, Token.scan?_stringText, Token.scan?, Token.scan?,
        scan?_lines value hvalue (endsNumber_fieldLines _ _ _ _), scan?_fieldLines fields hfields,
        Token.scan?_newline, Token.scan?]
      simp [Function.comp_def]

theorem scan?_itemLines {depth outer : Nat} {rest : List Char} :
    (items : List Json) → PlainItems items →
      Token.scan? (itemLines depth items ++ (newline outer ++ rest)) =
        (Token.scan? (newline outer ++ rest)).map (itemTokens items ++ ·)
  | [], _ => by simp [itemLines, itemTokens]
  | item :: items, h => by
      obtain ⟨hitem, hitems⟩ := h
      rw [itemLines, itemTokens]
      simp only [List.cons_append, List.append_assoc]
      rw [Token.scan?, Token.scan?_newline,
        scan?_lines item hitem (endsNumber_itemLines _ _ _ _), scan?_itemLines items hitems]
      simp [Function.comp_def]

theorem scan?_fieldLines {depth outer : Nat} {rest : List Char} :
    (fields : List (Option String × Json)) → PlainFields fields →
      Token.scan? (fieldLines depth fields ++ (newline outer ++ rest)) =
        (Token.scan? (newline outer ++ rest)).map (fieldTokens fields ++ ·)
  | [], _ => by simp [fieldLines, fieldTokens]
  | (some name, value) :: fields, h => by
      obtain ⟨-, hvalue, hfields⟩ := h
      rw [fieldLines, fieldTokens]
      simp only [List.cons_append, List.append_assoc, List.nil_append]
      rw [Token.scan?, Token.scan?_newline, Token.scan?_stringText, Token.scan?, Token.scan?,
        scan?_lines value hvalue (endsNumber_fieldLines _ _ _ _), scan?_fieldLines fields hfields]
      simp [Function.comp_def]

end

/-! ## From the tokens to the value -/

/-- A value does not start with the end of an array, so it may stand where an array may end. -/
theorem exists_cons_tokens (json : Json) :
    ∃ token rest, json.tokens = token :: rest ∧ token ≠ .closeArray := by
  cases json with
  | array items => cases items <;> exact ⟨_, _, rfl, by simp⟩
  | object fields => cases fields <;> exact ⟨_, _, rfl, by simp⟩
  | _ => exact ⟨_, _, rfl, by simp⟩

theorem run_firstItem (frames : List Frame) (item : Json) (rest : List Token) :
    (item.tokens ++ rest).foldlM Cursor.step? (.wantItem frames) =
      (item.tokens ++ rest).foldlM Cursor.step? (.wantValue (.array [] :: frames)) := by
  obtain ⟨token, behind, htokens, hclose⟩ := exists_cons_tokens item
  have hstep : Cursor.step? (.wantItem frames) token =
      Cursor.step? (.wantValue (.array [] :: frames)) token := by
    rw [Cursor.step?, Cursor.step?]
    exact hclose
  rw [htokens, List.cons_append, List.foldlM_cons, List.foldlM_cons, hstep]

theorem run_append {cursor next : Cursor} {tokens : List Token}
    (h : tokens.foldlM Cursor.step? cursor = some next) (rest : List Token) :
    (tokens ++ rest).foldlM Cursor.step? cursor = rest.foldlM Cursor.step? next := by
  rw [List.foldlM_append, h]
  rfl

mutual

theorem run_tokens (frames : List Frame) : (json : Json) →
    json.tokens.foldlM Cursor.step? (.wantValue frames) = some (Cursor.complete json frames)
  | null => rfl
  | bool _ => rfl
  | natural _ => rfl
  | number _ => rfl
  | string _ => rfl
  | array [] => rfl
  | array (item :: items) => by
      rw [tokens, List.append_assoc, List.foldlM_cons, Cursor.step?, Cursor.begin?,
        Option.bind_eq_bind, Option.bind_some, run_firstItem, run_append (run_tokens _ item),
        Cursor.complete, run_append (run_itemTokens frames [item] items), ← List.reverse_cons]
      simp [Cursor.step?]
  | object [] => rfl
  | object ((name, value) :: fields) => by
      rw [tokens, List.append_assoc]
      simp only [List.foldlM_cons, Cursor.step?, Cursor.begin?, Option.bind_eq_bind,
        Option.bind_some]
      rw [run_append (run_tokens _ value), Cursor.complete,
        run_append (run_fieldTokens frames [(name, value)] fields), ← List.reverse_cons]
      simp [Cursor.step?]

theorem run_itemTokens (frames : List Frame) (before : List Json) : (items : List Json) →
    (itemTokens items).foldlM Cursor.step? (.behindItem before frames) =
      some (.behindItem (items.reverse ++ before) frames)
  | [] => rfl
  | item :: items => by
      rw [itemTokens, List.foldlM_cons, Cursor.step?, Option.bind_eq_bind, Option.bind_some,
        run_append (run_tokens _ item), Cursor.complete, run_itemTokens frames (item :: before)]
      simp

theorem run_fieldTokens (frames : List Frame) (before : List (Option String × Json)) :
    (fields : List (Option String × Json)) →
    (fieldTokens fields).foldlM Cursor.step? (.behindField before frames) =
      some (.behindField (fields.reverse ++ before) frames)
  | [] => rfl
  | (name, value) :: fields => by
      rw [fieldTokens]
      simp only [List.foldlM_cons, Cursor.step?, Option.bind_eq_bind, Option.bind_some]
      rw [run_append (run_tokens _ value), Cursor.complete,
        run_fieldTokens frames ((name, value) :: before)]
      simp

end

/-- Plain JSON is read back from its lines. -/
theorem parse?_render {json : Json} (h : json.Plain) : parse? json.render = some json := by
  have hscan : Token.scan? (json.lines 0) = some json.tokens := by
    have hlines := @scan?_lines 0 [] json h (by simp [Token.EndsNumber])
    rw [List.append_nil] at hlines
    rw [hlines, Token.scan?, Option.map_some, List.append_nil]
  rw [parse?, render, String.toList_ofList, hscan]
  simp only [Option.bind_eq_bind, Option.bind_some, run_tokens]
  rfl

end FirmwareLift.Json
