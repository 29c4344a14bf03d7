import ImapSearch.Criteria.Encode
import Mathlib.Data.List.Basic

/-!
# ImapSearch.Proofs.Command.Literals

**The literals of criteria.** The encoder writes bytes that are fixed, values of its
own, and texts of the caller; and only a text can come out as a literal. Here the
encoding is taken apart into such pieces (`Criteria.pieces`): put together again they
are the encoding (`Criteria.flatMap_bytes_pieces`).

Which literals a search needs is asked before it is written, by going over the texts of
its criteria (`Criteria.literalSizes`). That list says the same as the pieces do
(`Criteria.flatMap_sizes_pieces`). It also goes over the names of header fields that
are never written, because they have a search word of their own; but such a name is
ASCII, so it would not be a literal.
-/

namespace ImapSearch

/-! ### Pieces -/

/-- A piece of an encoding. -/
inductive Piece
  /-- Bytes that are no literal. -/
  | plain (bs : Bytes)
  /-- A literal: a header that announces the size of the content, then the content. -/
  | literal (content : Bytes)

namespace Piece

/-- The bytes of a piece. -/
def bytes : Piece → Bytes
  | plain bs => bs
  | literal content => Text.literal content

/-- The sizes that a piece announces. -/
def sizes : Piece → List Nat
  | plain _ => []
  | literal content => [content.length]

@[simp] theorem bytes_plain (bs : Bytes) : (plain bs).bytes = bs := rfl

@[simp] theorem sizes_plain (bs : Bytes) : (plain bs).sizes = [] := rfl

end Piece

/-- A text as a piece. -/
def Text.piece (s : String) : Piece :=
  if isLiteral s then .literal (utf8 s) else .plain (quoted (utf8 s))

/-- An item that holds no text, as pieces. -/
def plainItem (item : Bytes) : List Piece := [.plain item]

/-- An item of a search key as pieces: a word, a space, and what belongs to it. -/
def itemPieces (word : String) (arguments : List Piece) : List Piece :=
  .plain (utf8 word ++ [Ascii.space]) :: arguments

/-- The item for a header field, as pieces. -/
def HeaderField.pieces (field : HeaderField) : List Piece :=
  let word := upperCase (utf8 field.name)
  if headerWords.contains word then [.plain (word ++ [Ascii.space]), Text.piece field.value]
  else itemPieces "HEADER" [Text.piece field.name, .plain [Ascii.space], Text.piece field.value]

/-- The items of conditions, as pieces. -/
def Conditions.pieces (c : Conditions) : List (List Piece) :=
  (if c.seqNums.isEmpty then [] else [plainItem c.seqNums.encode])
    ++ (if c.uids.isEmpty then [] else [plainItem (searchItem "UID" c.uids.encode)])
    ++ (dateItems "ON" "SINCE" "BEFORE" c.since c.before).map plainItem
    ++ (dateItems "SENTON" "SENTSINCE" "SENTBEFORE" c.sentSince c.sentBefore).map plainItem
    ++ c.headers.map HeaderField.pieces
    ++ c.body.map (fun s => itemPieces "BODY" [Text.piece s])
    ++ c.text.map (fun s => itemPieces "TEXT" [Text.piece s])
    ++ c.flags.map (fun flag => plainItem flag.setItem)
    ++ c.notFlags.map (fun flag => plainItem flag.unsetItem)
    ++ (if c.larger = 0 then [] else [plainItem (searchItem "LARGER" (Decimal.encode c.larger))])
    ++ (if c.smaller = 0 then [] else [plainItem (searchItem "SMALLER" (Decimal.encode c.smaller))])

/-- A parenthesised search key of the given items, as pieces. -/
def keyPieces (items : List (List Piece)) : List Piece :=
  .plain [Ascii.openParen]
    :: (if items = [] then [.plain (utf8 "ALL")] else [.plain [Ascii.space]].intercalate items)
    ++ [.plain [Ascii.closeParen]]

mutual

/-- The encoding of criteria, as pieces. -/
def Criteria.pieces : Criteria → List Piece
  | ⟨conditions, excluded, alternatives⟩ =>
    keyPieces (conditions.pieces ++ excludedPieces excluded ++ alternativePieces alternatives)

/-- The items for subtrees that must not match, as pieces. -/
def excludedPieces : List Criteria → List (List Piece)
  | [] => []
  | c :: rest => itemPieces "NOT" c.pieces :: excludedPieces rest

/-- The items for pairs of subtrees, as pieces. -/
def alternativePieces : List (Criteria × Criteria) → List (List Piece)
  | [] => []
  | (left, right) :: rest =>
    itemPieces "OR" (left.pieces ++ .plain [Ascii.space] :: right.pieces) :: alternativePieces rest

end

/-! ### The bytes of the pieces -/

theorem flatMap_intercalate {α β : Type} (f : α → List β) (sep : List α) (parts : List (List α)) :
    (sep.intercalate parts).flatMap f
      = (sep.flatMap f).intercalate (parts.map fun part => part.flatMap f) := by
  induction parts with
  | nil => rfl
  | cons part parts ih =>
    cases parts with
    | nil => simp only [List.map_cons, List.map_nil, List.intercalate_singleton]
    | cons next parts =>
      simp only [List.map_cons, List.intercalate_cons_cons, List.flatMap_append] at ih ⊢
      rw [ih]

theorem nil_intercalate {α : Type} (parts : List (List α)) :
    [].intercalate parts = parts.flatten := by
  induction parts with
  | nil => rfl
  | cons part parts ih =>
    cases parts with
    | nil => simp
    | cons next parts =>
      rw [List.intercalate_cons_cons, ih, List.append_nil]
      rfl

@[simp] theorem Text.bytes_piece (s : String) : (piece s).bytes = argument s := by
  unfold piece argument
  split <;> rfl

@[simp] theorem flatMap_bytes_plainItem (item : Bytes) :
    (plainItem item).flatMap Piece.bytes = item :=
  List.append_nil _

@[simp] theorem flatMap_bytes_itemPieces (word : String) (arguments : List Piece) :
    (itemPieces word arguments).flatMap Piece.bytes
      = searchItem word (arguments.flatMap Piece.bytes) := by
  rw [itemPieces, searchItem, List.flatMap_cons, Piece.bytes_plain, List.append_assoc,
    List.singleton_append]

@[simp] theorem HeaderField.flatMap_bytes_pieces (field : HeaderField) :
    field.pieces.flatMap Piece.bytes = field.item := by
  unfold pieces item
  dsimp only
  by_cases hword : upperCase (utf8 field.name) ∈ headerWords
  · rw [if_pos hword, if_pos (List.contains_iff_mem.mpr hword)]
    simp
  · rw [if_neg hword, if_neg (mt List.contains_iff_mem.mp hword)]
    simp

theorem Conditions.map_bytes_pieces (c : Conditions) :
    c.pieces.map (fun item => item.flatMap Piece.bytes) = c.items := by
  have optional : ∀ {absent : Prop} [Decidable absent] (item : Bytes),
      (if absent then [] else [plainItem item]).map (fun item => item.flatMap Piece.bytes)
        = if absent then [] else [item] := by
    intro absent _ item
    split <;> simp
  simp only [pieces, items, List.map_append, List.map_map, optional, Function.comp_def,
    flatMap_bytes_plainItem, flatMap_bytes_itemPieces, HeaderField.flatMap_bytes_pieces,
    List.flatMap_singleton, Text.bytes_piece, List.map_id']

theorem flatMap_bytes_keyPieces (items : List (List Piece)) :
    (keyPieces items).flatMap Piece.bytes
      = searchKey (items.map fun item => item.flatMap Piece.bytes) := by
  unfold keyPieces searchKey
  rw [List.flatMap_append, List.flatMap_cons, Piece.bytes_plain]
  cases items with
  | nil => rfl
  | cons item items =>
    rw [if_neg (List.cons_ne_nil _ _), flatMap_intercalate, List.map_cons,
      if_neg (List.cons_ne_nil _ _)]
    rfl

mutual

/-- The pieces of criteria are their encoding. -/
theorem Criteria.flatMap_bytes_pieces :
    ∀ c : Criteria, c.pieces.flatMap Piece.bytes = c.encode
  | ⟨conditions, excluded, alternatives⟩ => by
    rw [Criteria.pieces, flatMap_bytes_keyPieces, Criteria.encode, List.map_append, List.map_append,
      conditions.map_bytes_pieces, map_bytes_excludedPieces excluded,
      map_bytes_alternativePieces alternatives]

theorem map_bytes_excludedPieces : ∀ cs : List Criteria,
    (excludedPieces cs).map (fun item => item.flatMap Piece.bytes) = excludedItems cs
  | [] => rfl
  | c :: rest => by
    rw [excludedPieces, excludedItems, List.map_cons, flatMap_bytes_itemPieces,
      c.flatMap_bytes_pieces, map_bytes_excludedPieces rest]

theorem map_bytes_alternativePieces : ∀ cs : List (Criteria × Criteria),
    (alternativePieces cs).map (fun item => item.flatMap Piece.bytes) = alternativeItems cs
  | [] => rfl
  | (left, right) :: rest => by
    rw [alternativePieces, alternativeItems, List.map_cons, flatMap_bytes_itemPieces,
      List.flatMap_append, List.flatMap_cons, Piece.bytes_plain, left.flatMap_bytes_pieces,
      right.flatMap_bytes_pieces, map_bytes_alternativePieces rest]
    rfl

end

/-! ### The literals of the pieces -/

@[simp] theorem Text.sizes_piece (s : String) : (piece s).sizes = (literalSize? s).toList := by
  unfold piece literalSize?
  split <;> rfl

@[simp] theorem flatMap_sizes_plainItem (item : Bytes) :
    (plainItem item).flatMap Piece.sizes = [] := rfl

@[simp] theorem flatMap_sizes_itemPieces (word : String) (arguments : List Piece) :
    (itemPieces word arguments).flatMap Piece.sizes = arguments.flatMap Piece.sizes := rfl

theorem needsLiteral_upper (b : UInt8) :
    Text.needsLiteral (Ascii.upper b) = Text.needsLiteral b := by
  unfold Text.needsLiteral Ascii.upper
  grind

/-- The name of a field with a search word of its own would be no literal. -/
theorem literalSize?_of_mem_headerWords {name : String}
    (h : upperCase (utf8 name) ∈ headerWords) : Text.literalSize? name = none := by
  have hwords : ∀ word ∈ headerWords, word.any Text.needsLiteral = false := by decide
  have hname := hwords _ h
  have hcomp : Text.needsLiteral ∘ Ascii.upper = Text.needsLiteral := funext needsLiteral_upper
  rw [upperCase, List.any_map, hcomp] at hname
  rw [Text.literalSize?, Text.isLiteral, hname]
  rfl

theorem HeaderField.flatMap_sizes_pieces (field : HeaderField) :
    field.pieces.flatMap Piece.sizes = [field.name, field.value].filterMap Text.literalSize? := by
  rw [List.filterMap_eq_flatMap_toList]
  unfold pieces
  dsimp only
  split
  next hword => simp [literalSize?_of_mem_headerWords (List.contains_iff_mem.mp hword)]
  next => simp

theorem Conditions.flatMap_sizes_pieces (c : Conditions) :
    c.pieces.flatMap (fun item => item.flatMap Piece.sizes) = c.literalSizes := by
  have optional : ∀ {absent : Prop} [Decidable absent] (item : Bytes),
      (if absent then [] else [plainItem item]).flatMap (fun item => item.flatMap Piece.sizes)
        = [] := by
    intro absent _ item
    split <;> rfl
  have plain : ∀ {α : Type} (as : List α), (as.flatMap fun _ => ([] : List Nat)) = [] :=
    fun _ => List.flatMap_eq_nil_iff.mpr fun _ _ => rfl
  rw [pieces, literalSizes, strings, List.filterMap_append, List.filterMap_append,
    List.filterMap_flatMap]
  simp only [List.flatMap_append, List.flatMap_map, optional, flatMap_sizes_plainItem, plain,
    HeaderField.flatMap_sizes_pieces, flatMap_sizes_itemPieces, List.flatMap_singleton,
    Text.sizes_piece, List.filterMap_eq_flatMap_toList, List.nil_append, List.append_nil]

theorem flatMap_sizes_keyPieces (items : List (List Piece)) :
    (keyPieces items).flatMap Piece.sizes = items.flatMap fun item => item.flatMap Piece.sizes := by
  unfold keyPieces
  rw [List.flatMap_append, List.flatMap_cons, Piece.sizes_plain, List.flatMap_singleton,
    Piece.sizes_plain, List.nil_append, List.append_nil]
  split
  next hnone => rw [hnone]; rfl
  next =>
    have hsep : [Piece.plain [Ascii.space]].flatMap Piece.sizes = [] := rfl
    rw [flatMap_intercalate, hsep, nil_intercalate, List.flatMap_def]

mutual

/-- The literals of criteria are those that their pieces announce. -/
theorem Criteria.flatMap_sizes_pieces :
    ∀ c : Criteria, c.pieces.flatMap Piece.sizes = c.literalSizes
  | ⟨conditions, excluded, alternatives⟩ => by
    rw [Criteria.pieces, flatMap_sizes_keyPieces, Criteria.literalSizes, List.flatMap_append,
      List.flatMap_append, conditions.flatMap_sizes_pieces, flatMap_sizes_excludedPieces excluded,
      flatMap_sizes_alternativePieces alternatives]

theorem flatMap_sizes_excludedPieces : ∀ cs : List Criteria,
    (excludedPieces cs).flatMap (fun item => item.flatMap Piece.sizes) = excludedLiteralSizes cs
  | [] => rfl
  | c :: rest => by
    rw [excludedPieces, excludedLiteralSizes, List.flatMap_cons, flatMap_sizes_itemPieces,
      c.flatMap_sizes_pieces, flatMap_sizes_excludedPieces rest]

theorem flatMap_sizes_alternativePieces : ∀ cs : List (Criteria × Criteria),
    (alternativePieces cs).flatMap (fun item => item.flatMap Piece.sizes)
      = alternativeLiteralSizes cs
  | [] => rfl
  | (left, right) :: rest => by
    rw [alternativePieces, alternativeLiteralSizes, List.flatMap_cons, flatMap_sizes_itemPieces,
      List.flatMap_append, List.flatMap_cons, Piece.sizes_plain, left.flatMap_sizes_pieces,
      right.flatMap_sizes_pieces, flatMap_sizes_alternativePieces rest]
    rfl

end

end ImapSearch
