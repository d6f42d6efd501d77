/-
  Kanagawa.Frontend.SkipBraces

  The look-ahead over the bodies of members (`Parser.hs`: `functionDef`, `class'`).

  Before a class is parsed its members are read once with their bodies skipped.
  `skipBraces` pairs the brace characters of the text, those of comments and of
  string literals too; the full parser pairs the brace symbols.  The two close at
  the same brace exactly when the characters between the symbols are balanced.
-/
import Kanagawa.Frontend.Lexer

namespace Kanagawa.Frontend.Lexer

open Lib.Brackets

variable {σ α η : Type}

/-! ## The text that is read -/

theorem dropPrefix?_singleton (c d : Char) (s : List Char) :
    (c :: s).dropPrefix? [d] = if d = c then some s else none := by
  by_cases h_eq : d = c
  · simp [List.dropPrefix?, h_eq]
  · simp [List.dropPrefix?, h_eq, Ne.symm h_eq]

theorem suffix_of_dropPrefix? {s pre rest : List Char} (h : s.dropPrefix? pre = some rest) :
    rest <:+ s := by
  obtain ⟨pre', rfl, -⟩ := List.dropPrefix?_eq_some_iff.1 h
  exact List.suffix_append _ _

theorem skipToStop_suffix {start stop : List Char} {fuel : Nat} {s rest : List Char}
    (h : skipToStop start stop fuel s = some rest) : rest <:+ s := by
  induction fuel generalizing s rest with
  | zero => cases h
  | succ fuel ih =>
    rw [skipToStop.eq_def] at h
    dsimp only at h
    split at h
    · next h_stop =>
      cases h
      exact suffix_of_dropPrefix? h_stop
    · split at h
      · next inner h_start =>
        obtain ⟨mid, h_inner, h_rest⟩ := Option.bind_eq_some_iff.1 h
        exact (ih h_rest).trans ((ih h_inner).trans (suffix_of_dropPrefix? h_start))
      · cases s with
        | nil => cases h
        | cons c s => exact (ih h).trans (List.suffix_cons c s)

theorem committed_ok {o : Option (List Char)} {rest : List Char} :
    committed o = .ok () rest ↔ o = some rest := by
  cases o with
  | none => simp [committed]
  | some _ => simp [committed]

theorem startComment_suffix {parseDocs : Bool} {pre s text : List Char}
    (h : startComment parseDocs pre s = some text) : text <:+ s := by
  rw [startComment] at h
  split at h
  · cases h
  · next rest h_rest =>
    have h_suffix := suffix_of_dropPrefix? h_rest
    split at h
    · dsimp only at h
      split at h
      · cases h
      · cases h
        exact (List.dropWhile_suffix _).trans h_suffix
    · cases h
      exact h_suffix

theorem Reply.orElse_ok {p q : Reply α} {a : α} {rest : List Char}
    (h : p.orElse q = .ok a rest) : p = .ok a rest ∨ q = .ok a rest := by
  cases p with
  | ok _ _ => exact .inl h
  | empty => exact .inr h
  | consumed => cases h

theorem whitespaceItem_suffix {parseDocs : Bool} {s rest : List Char}
    (h : whitespaceItem parseDocs s = .ok () rest) : rest <:+ s := by
  rcases Reply.orElse_ok h with h | h_block
  · rcases Reply.orElse_ok h with h_space | h_line
    · cases s with
      | nil => cases h_space
      | cons c s =>
        rw [space1] at h_space
        split at h_space
        · cases h_space
          exact (List.dropWhile_suffix _).trans (List.suffix_cons c s)
        · cases h_space
    · rw [lineCmnt] at h_line
      split at h_line
      · cases h_line
      · next text h_text =>
        cases h_line
        exact (List.dropWhile_suffix _).trans (startComment_suffix h_text)
  · rw [blockCmnt] at h_block
    split at h_block
    · cases h_block
    · next text h_text =>
      exact (skipToStop_suffix (committed_ok.1 h_block)).trans (startComment_suffix h_text)

theorem skipWhitespace_suffix {parseDocs : Bool} {fuel : Nat} {s rest : List Char}
    (h : skipWhitespace parseDocs fuel s = .ok () rest) : rest <:+ s := by
  induction fuel generalizing s with
  | zero => cases h
  | succ fuel ih =>
    rw [skipWhitespace] at h
    split at h
    · next h_item => exact (ih h).trans (whitespaceItem_suffix h_item)
    · cases h
      exact List.suffix_refl _
    · cases h

theorem whitespace_suffix {parseDocs : Bool} {s rest : List Char}
    (h : whitespace parseDocs s = .ok () rest) : rest <:+ s :=
  skipWhitespace_suffix h

theorem Reply.andThen_ok {β : Type} {p : Reply α} {f : α → List Char → Reply β} {b : β}
    {out : List Char} :
    p.andThen f = .ok b out ↔ ∃ a rest, p = .ok a rest ∧ f a rest = .ok b out := by
  cases p with
  | ok a rest =>
    rw [Reply.andThen]
    cases h_f : f a rest with
    | ok b' out' => simp [h_f]
    | empty => simp [h_f]
    | consumed => simp [h_f]
  | empty => simp [Reply.andThen]
  | consumed => simp [Reply.andThen]

theorem lexeme_ok {parseDocs : Bool} {p : Reply α} {a : α} {out : List Char} :
    lexeme parseDocs p = .ok a out ↔
      ∃ rest, p = .ok a rest ∧ whitespace parseDocs rest = .ok () out := by
  rw [lexeme, Reply.andThen_ok]
  constructor
  · rintro ⟨a', rest, h_p, h_then⟩
    obtain ⟨_, out', h_space, h_out⟩ := Reply.andThen_ok.1 h_then
    cases h_out
    exact ⟨rest, h_p, h_space⟩
  · rintro ⟨rest, h_p, h_space⟩
    exact ⟨a, rest, h_p, Reply.andThen_ok.2 ⟨(), out, h_space, rfl⟩⟩

theorem symbol_ok {parseDocs : Bool} {c : Char} {s out : List Char} :
    symbol parseDocs [c] s = .ok () out ↔
      ∃ rest, s = c :: rest ∧ whitespace parseDocs rest = .ok () out := by
  rw [symbol, lexeme_ok]
  apply exists_congr
  intro rest
  apply and_congr_left
  intro _
  cases s with
  | nil => simp [List.dropPrefix?]
  | cons x s =>
    rw [dropPrefix?_singleton]
    by_cases h_eq : c = x
    · simp [h_eq]
    · simp only [if_neg h_eq, List.cons.injEq]
      constructor
      · intro h
        cases h
      · rintro ⟨rfl, -⟩
        exact absurd rfl h_eq

/-! ## Skipping -/

/-- The braces of a text, read without regard to comments and literals, are balanced. -/
abbrev BracesBalanced (text : List Char) : Prop := Balanced '\x7b' '\x7d' text

/-- The skipper stops at the first closing brace that has a balanced text before it. -/
theorem skipToStop_braces_iff {fuel : Nat} {s rest : List Char} (h_fuel : s.length < fuel) :
    skipToStop ['\x7b'] ['\x7d'] fuel s = some rest ↔
      ∃ w, s = w ++ '\x7d' :: rest ∧ BracesBalanced w := by
  induction fuel generalizing s rest with
  | zero => omega
  | succ fuel ih =>
    rw [skipToStop.eq_def]
    dsimp only
    cases s with
    | nil => simp [List.dropPrefix?]
    | cons c s =>
      rw [List.length_cons] at h_fuel
      rw [dropPrefix?_singleton, dropPrefix?_singleton]
      by_cases h_close : '\x7d' = c
      · subst h_close
        simp only [if_true, Option.some.injEq]
        constructor
        · rintro rfl
          exact ⟨[], rfl, rfl⟩
        · rintro ⟨w, h_text, h_w⟩
          exact (prefix_unique (w := []) h_text rfl h_w).2
      · simp only [if_neg h_close]
        by_cases h_open : '\x7b' = c
        · subst h_open
          simp only [if_true, Option.bind_eq_some_iff]
          constructor
          · rintro ⟨mid, h_mid, h_rest⟩
            obtain ⟨u, rfl, hu⟩ := (ih (by omega)).1 h_mid
            have h_short : mid.length < fuel := by
              rw [List.length_append, List.length_cons] at h_fuel
              omega
            obtain ⟨v, rfl, hv⟩ := (ih h_short).1 h_rest
            exact ⟨_, by simp, hu.nest (by decide) hv⟩
          · rintro ⟨w, h_text, h_w⟩
            cases w with
            | nil =>
              exact absurd (List.cons.inj h_text).1 (by decide)
            | cons x w =>
              rw [List.cons_append, List.cons.injEq] at h_text
              obtain ⟨rfl, h_s⟩ := h_text
              -- the first brace of `w` closes inside it: the nested call stops there
              obtain ⟨u, v, rfl, hu, hv⟩ := h_w.of_open (by decide)
              rw [List.append_assoc, List.cons_append] at h_s
              have h_short : (v ++ '\x7d' :: rest).length < fuel := by
                rw [h_s, List.length_append, List.length_cons] at h_fuel
                omega
              exact ⟨v ++ '\x7d' :: rest, (ih (by omega)).2 ⟨u, h_s, hu⟩,
                (ih h_short).2 ⟨v, rfl, hv⟩⟩
        · simp only [if_neg h_open]
          rw [ih (by omega)]
          constructor
          · rintro ⟨w, rfl, h_w⟩
            refine ⟨c :: w, rfl, ?_⟩
            show depth _ _ 0 _ = _
            rw [depth_other (Ne.symm h_close) (Ne.symm h_open)]
            exact h_w
          · rintro ⟨w, h_text, h_w⟩
            cases w with
            | nil => exact absurd (List.cons.inj h_text).1.symm h_close
            | cons x w =>
              rw [List.cons_append, List.cons.injEq] at h_text
              obtain ⟨rfl, h_s⟩ := h_text
              have h_depth : depth '\x7b' '\x7d' 0 (c :: w) = some 0 := h_w
              rw [depth_other (Ne.symm h_close) (Ne.symm h_open)] at h_depth
              exact ⟨w, h_s, h_depth⟩

/-- `skipBraces` reads a brace, a balanced text, a closing brace and white space. -/
theorem skipBraces_ok {parseDocs : Bool} {s out : List Char} :
    skipBraces parseDocs s = .ok () out ↔
      ∃ w rest, s = '\x7b' :: (w ++ '\x7d' :: rest) ∧ BracesBalanced w ∧
        whitespace parseDocs rest = .ok () out := by
  rw [skipBraces, lexeme_ok]
  cases s with
  | nil => simp [skipBlockCommentNested, List.dropPrefix?]
  | cons c s =>
    rw [skipBlockCommentNested, dropPrefix?_singleton]
    by_cases h_open : '\x7b' = c
    · subst h_open
      simp only [if_true, committed_ok, skipToStop_braces_iff (Nat.lt_succ_self _),
        List.cons.injEq, true_and]
      constructor
      · rintro ⟨rest, ⟨w, h_text, h_w⟩, h_space⟩
        exact ⟨w, rest, h_text, h_w, h_space⟩
      · rintro ⟨w, rest, h_text, h_w, h_space⟩
        exact ⟨rest, ⟨w, h_text, h_w⟩, h_space⟩
    · simp only [if_neg h_open]
      constructor
      · rintro ⟨rest, h_reply, -⟩
        cases h_reply
      · rintro ⟨w, rest, h_text, -⟩
        exact absurd (List.cons.inj h_text).1.symm h_open

theorem skipBraces_reads {parseDocs : Bool} {s out : List Char}
    (h : skipBraces parseDocs s = .ok () out) : out <:+ s := by
  obtain ⟨w, rest, rfl, -, h_space⟩ := skipBraces_ok.1 h
  exact (whitespace_suffix h_space).trans
    ⟨'\x7b' :: (w ++ ['\x7d']), by simp⟩

/-! ## Parsing item by item -/

theorem manyItems_suffix {item : Item σ α} {fuel : Nat} {st : σ} {s : List Char}
    {r : List α × σ} {rest : List Char} (h : manyItems item fuel st s = .ok r rest) :
    rest <:+ s := by
  induction fuel generalizing st s r with
  | zero => cases h
  | succ fuel ih =>
    rw [manyItems] at h
    split at h
    · next h_item =>
      split at h
      · next h_more =>
        cases h
        exact (ih h_more).trans (item.reads h_item).1
      · cases h
    · cases h
      exact List.suffix_refl _
    · cases h

/-- The full parser of the braced items at `s` closes them at the brace behind
    `inner`, with `rest` following. -/
structure ClosesBehind (parseDocs : Bool) (item : Item σ α) (st : σ)
    (s inner rest : List Char) : Prop where
  text : s = '\x7b' :: (inner ++ '\x7d' :: rest)
  items : ∃ first r, whitespace parseDocs (inner ++ '\x7d' :: rest) = .ok () first ∧
    item.many st first = .ok r ('\x7d' :: rest)

/-- The full parser stops behind a closing brace and the white space there. -/
theorem braces_many_ok {parseDocs : Bool} {item : Item σ α} {st : σ} {s : List Char}
    {r : List α × σ} {out : List Char}
    (h : braces parseDocs (item.many st) s = .ok r out) :
    ∃ inner rest, ClosesBehind parseDocs item st s inner rest ∧
      whitespace parseDocs rest = .ok () out := by
  obtain ⟨_, first, h_open, h⟩ := Reply.andThen_ok.1 h
  obtain ⟨r', last, h_items, h⟩ := Reply.andThen_ok.1 h
  obtain ⟨_, out', h_close, h⟩ := Reply.andThen_ok.1 h
  cases h
  obtain ⟨body, rfl, h_first⟩ := symbol_ok.1 h_open
  obtain ⟨rest, rfl, h_out⟩ := symbol_ok.1 h_close
  obtain ⟨inner, rfl⟩ := (manyItems_suffix h_items).trans (whitespace_suffix h_first)
  exact ⟨inner, rest, ⟨rfl, first, r, h_first, h_items⟩, h_out⟩

/-- There is one closing brace. -/
theorem ClosesBehind.unique {parseDocs : Bool} {item : Item σ α} {st : σ}
    {s inner rest inner' rest' : List Char}
    (h : ClosesBehind parseDocs item st s inner rest)
    (h' : ClosesBehind parseDocs item st s inner' rest') : inner = inner' ∧ rest = rest' := by
  obtain ⟨first, r, h_first, h_items⟩ := h.items
  obtain ⟨first', r', h_first', h_items'⟩ := h'.items
  have h_text : inner ++ '\x7d' :: rest = inner' ++ '\x7d' :: rest' :=
    (List.cons.inj (h.text.symm.trans h'.text)).2
  rw [← h_text, h_first] at h_first'
  cases h_first'
  rw [h_items] at h_items'
  cases h_items'
  exact ⟨List.append_cancel_right h_text, rfl⟩

/-! ## Agreement -/

/-- Of the closing brace of the full parser and another one that raw counting
    stops at, the later is in a comment that follows the earlier. -/
inductive CommentHides (parseDocs : Bool) (inner rest : List Char) : Prop where
  | early (w u : List Char) : inner = w ++ '\x7d' :: u → BracesBalanced w →
      whitespace parseDocs (u ++ '\x7d' :: rest) = whitespace parseDocs rest →
      CommentHides parseDocs inner rest
  | late (u r : List Char) : rest = u ++ '\x7d' :: r → BracesBalanced (inner ++ '\x7d' :: u) →
      whitespace parseDocs r = whitespace parseDocs rest → CommentHides parseDocs inner rest

/-- The brace characters between the braces that the full parser pairs are
    balanced, those of comments and literals included, or a comment hides that
    they are not. -/
def BracesAgree (parseDocs : Bool) (item : Item σ α) (st : σ) (s : List Char) : Prop :=
  ∀ inner rest, ClosesBehind parseDocs item st s inner rest →
    BracesBalanced inner ∨ CommentHides parseDocs inner rest

/-- Another closing brace with a balanced text before it is before or behind the
    one of the full parser. -/
theorem balanced_or_hides {parseDocs : Bool} {inner rest w r out : List Char}
    (h_text : inner ++ '\x7d' :: rest = w ++ '\x7d' :: r) (h_w : BracesBalanced w)
    (h_rest : whitespace parseDocs rest = .ok () out)
    (h_r : whitespace parseDocs r = .ok () out) :
    BracesBalanced inner ∨ CommentHides parseDocs inner rest := by
  rcases List.append_eq_append_iff.1 h_text with ⟨u, rfl, h_u⟩ | ⟨u, rfl, h_u⟩
  · cases u with
    | nil =>
      rw [List.append_nil] at h_w
      exact .inl h_w
    | cons x u =>
      obtain ⟨rfl, rfl⟩ := List.cons.inj h_u
      exact .inr (.late u r rfl h_w (h_r.trans h_rest.symm))
  · cases u with
    | nil =>
      rw [List.append_nil]
      exact .inl h_w
    | cons x u =>
      obtain ⟨rfl, rfl⟩ := List.cons.inj h_u
      exact .inr (.early w u rfl h_w (h_r.trans h_rest.symm))

/-- Where the full parser of a braced body succeeds, the skipper ends where it does
    exactly when the brace characters agree with the brace symbols. -/
theorem skipBraces_iff {parseDocs : Bool} {item : Item σ α} {st : σ} {s : List Char}
    {r : List α × σ} {out : List Char} (h : braces parseDocs (item.many st) s = .ok r out) :
    skipBraces parseDocs s = .ok () out ↔ BracesAgree parseDocs item st s := by
  obtain ⟨inner, rest, h_closes, h_out⟩ := braces_many_ok h
  rw [skipBraces_ok]
  constructor
  · rintro ⟨w, rest', h_text, h_w, h_space⟩ inner' rest'' h_closes'
    obtain ⟨rfl, rfl⟩ := h_closes.unique h_closes'
    rw [h_closes.text] at h_text
    exact balanced_or_hides (List.cons.inj h_text).2 h_w h_out h_space
  · intro h_agree
    rcases h_agree inner rest h_closes with h_balanced | h_hides
    · exact ⟨inner, rest, h_closes.text, h_balanced, h_out⟩
    · cases h_hides with
      | early w u h_inner h_w h_space =>
        refine ⟨w, u ++ '\x7d' :: rest, ?_, h_w, h_space.trans h_out⟩
        rw [h_closes.text, h_inner, List.append_assoc, List.cons_append]
      | late u r' h_rest h_w h_space =>
        refine ⟨inner ++ '\x7d' :: u, r', ?_, h_w, h_space.trans h_out⟩
        rw [h_closes.text, h_rest, List.append_assoc, List.cons_append]

/-! ## Members -/

theorem functionBody_reads {parseDocs : Bool} {item : Item σ α} {st : σ} {s out : List Char}
    (h : functionBody parseDocs item st s = .ok () out) : out <:+ s := by
  obtain ⟨r, out', h_braces, h_out⟩ := Reply.andThen_ok.1 h
  cases h_out
  obtain ⟨inner, rest, h_closes, h_space⟩ := braces_many_ok h_braces
  rw [h_closes.text]
  exact (whitespace_suffix h_space).trans ⟨'\x7b' :: (inner ++ ['\x7d']), by simp⟩

/-- `memberDecl`: a declaration, and for the header of a function its body.  What the
    body declares is in a scope that ends with it. -/
def memberDecl (header : Item σ (η × Bool)) (body : σ → List Char → Reply Unit)
    (h_reads : ∀ {st s out}, body st s = .ok () out → out <:+ s) : Item σ η where
  parse st s :=
    match header.parse st s with
    | .ok ((member, false), st') rest => .ok (member, st') rest
    | .ok ((member, true), st') rest =>
      match body st' rest with
      | .ok _ out => .ok (member, st') out
      | _ => .consumed
    | .empty => .empty
    | .consumed => .consumed
  reads := by
    intro st s a rest h
    split at h
    · next h_header =>
      cases h
      exact header.reads h_header
    · next h_header =>
      obtain ⟨h_suffix, h_short⟩ := header.reads h_header
      split at h
      · next h_body =>
        cases h
        have h_out := h_reads h_body
        exact ⟨h_out.trans h_suffix, Nat.lt_of_le_of_lt h_out.length_le h_short⟩
      · cases h
    · cases h
    · cases h

/-- The members of a class, each body parsed. -/
def fullMember (parseDocs : Bool) (header : Item σ (η × Bool)) (item : Item σ α) : Item σ η :=
  memberDecl header (functionBody parseDocs item) functionBody_reads

/-- The members of a class under `skipMemberBody`. -/
def skippedMember (parseDocs : Bool) (header : Item σ (η × Bool)) : Item σ η :=
  memberDecl header (fun _ => skipBraces parseDocs) skipBraces_reads

/-- The full parser of members, started in a state at a text, comes to the body of a
    function in another state at another text. -/
inductive ComesToBody (parseDocs : Bool) (header : Item σ (η × Bool)) (item : Item σ α) :
    σ → List Char → σ → List Char → Prop where
  | here {st s member st' rest} : header.parse st s = .ok ((member, true), st') rest →
      ComesToBody parseDocs header item st s st' rest
  | later {st s member st' rest st'' s''} :
      (fullMember parseDocs header item).parse st s = .ok (member, st') rest →
      ComesToBody parseDocs header item st' rest st'' s'' →
      ComesToBody parseDocs header item st s st'' s''

/-- One member is read alike when the braces of its body agree. -/
theorem skippedMember_parse {parseDocs : Bool} {header : Item σ (η × Bool)}
    {item : Item σ α} {st : σ} {s : List Char} {r : η × σ} {rest : List Char}
    (h : (fullMember parseDocs header item).parse st s = .ok r rest)
    (h_agree : ∀ st' s', ComesToBody parseDocs header item st s st' s' →
      BracesAgree parseDocs item st' s') :
    (skippedMember parseDocs header).parse st s = .ok r rest := by
  simp only [fullMember, skippedMember, memberDecl] at h ⊢
  split at h
  · next h_header => exact h
  · next h_header =>
    split at h
    · next h_body =>
      obtain ⟨_, out', h_braces, h_out⟩ := Reply.andThen_ok.1 h_body
      cases h_out
      rw [(skipBraces_iff h_braces).2 (h_agree _ _ (.here h_header))]
      exact h
    · cases h
  · cases h
  · cases h

/-- The header decides whether there is a member. -/
theorem skippedMember_empty {parseDocs : Bool} {header : Item σ (η × Bool)}
    {item : Item σ α} {st : σ} {s : List Char}
    (h : (fullMember parseDocs header item).parse st s = .empty) :
    (skippedMember parseDocs header).parse st s = .empty := by
  simp only [fullMember, skippedMember, memberDecl] at h ⊢
  split at h
  · cases h
  · split at h
    · cases h
    · cases h
  · rfl
  · cases h

theorem skippedMembers {parseDocs : Bool} {header : Item σ (η × Bool)} {item : Item σ α}
    {fuel : Nat} {st : σ} {s : List Char} {r : List η × σ} {rest : List Char}
    (h : manyItems (fullMember parseDocs header item) fuel st s = .ok r rest)
    (h_agree : ∀ st' s', ComesToBody parseDocs header item st s st' s' →
      BracesAgree parseDocs item st' s') :
    manyItems (skippedMember parseDocs header) fuel st s = .ok r rest := by
  induction fuel generalizing st s r with
  | zero => cases h
  | succ fuel ih =>
    rw [manyItems] at h ⊢
    split at h
    · next h_member =>
      rw [skippedMember_parse h_member h_agree]
      split at h
      · next h_more =>
        cases h
        have h_rest := ih h_more (fun st' s' h_comes => h_agree st' s' (.later h_member h_comes))
        dsimp only
        rw [h_rest]
      · cases h
    · next h_member =>
      rw [skippedMember_empty h_member]
      exact h
    · cases h

/-- The members of a class whose bodies all agree are read alike in the look-ahead. -/
theorem skippedMembers_braces {parseDocs : Bool} {header : Item σ (η × Bool)}
    {item : Item σ α} {st : σ} {s : List Char} {r : List η × σ} {out : List Char}
    (h : braces parseDocs ((fullMember parseDocs header item).many st) s = .ok r out)
    (h_agree : ∀ first st' s', symbol parseDocs ['\x7b'] s = .ok () first →
      ComesToBody parseDocs header item st first st' s' → BracesAgree parseDocs item st' s') :
    braces parseDocs ((skippedMember parseDocs header).many st) s = .ok r out := by
  obtain ⟨_, first, h_open, h⟩ := Reply.andThen_ok.1 h
  obtain ⟨r', last, h_items, h_close⟩ := Reply.andThen_ok.1 h
  refine Reply.andThen_ok.2 ⟨(), first, h_open, Reply.andThen_ok.2 ⟨r', last, ?_, h_close⟩⟩
  apply skippedMembers h_items
  intro st' s' h_comes
  exact h_agree first st' s' h_open h_comes

/-- The statements of a body without any. -/
def noStatement : Item Unit Unit where
  parse _ _ := .empty
  reads := nofun

/-- A function header is the letter `f`. -/
def letterHeader : Item Unit (Char × Bool) where
  parse st s :=
    match s with
    | 'f' :: rest => .ok (('f', true), st) rest
    | _ => .empty
  reads := by
    intro st s a rest h
    split at h
    · cases h
      exact ⟨List.suffix_cons _ _, Nat.lt_succ_self _⟩
    · cases h

end Kanagawa.Frontend.Lexer
