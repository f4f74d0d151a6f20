import Scriptlet.Proofs.Endings
import Scriptlet.Proofs.Naming
import Scriptlet.Proofs.Pieces
import Scriptlet.Tree.Outline
/-!
# Outlines read back

An outline has one line for each part of a tree, in preorder. The tree of a program can be read back
from it, but for the places: how far a line is set in says how deep its part lies, and what it says
tells nodes, tokens and missing children apart.
-/

namespace Scriptlet

namespace Tree

/-! ## Parts -/

/-- The part at the end of a way down, which gives the number of the child at each turn. -/
def part? : Tree → List Nat → Option Tree
  | t, [] => some t
  | t, i :: way => t.children[i]?.bind (·.part? way)

mutual

/-- All parts of a tree with the ways to them, a node in front of its children. -/
def parts : Tree → List (List Nat × Tree)
  | missing => [([], missing)]
  | token kind text place => [([], token kind text place)]
  | node label place children => ([], node label place children) :: partsFrom 0 children

def partsFrom (i : Nat) : List Tree → List (List Nat × Tree)
  | [] => []
  | t :: ts => (parts t).map (fun (way, part) => (i :: way, part)) ++ partsFrom (i + 1) ts

end

mutual

theorem mem_parts_iff (t : Tree) (way : List Nat) (part : Tree) :
    (way, part) ∈ t.parts ↔ t.part? way = some part := by
  match t with
  | missing | token .. => cases way <;> simp [parts, part?, children, eq_comm]
  | node label place children =>
    cases way with
    | nil => simp [parts, part?, mem_partsFrom_iff, eq_comm]
    | cons i way => simp [parts, part?, mem_partsFrom_iff, Tree.children, Option.bind_eq_some_iff]

theorem mem_partsFrom_iff (ts : List Tree) (i : Nat) (way : List Nat) (part : Tree) :
    (way, part) ∈ partsFrom i ts ↔
      ∃ j rest t, way = (i + j) :: rest ∧ ts[j]? = some t ∧ t.part? rest = some part := by
  match ts with
  | [] => simp [partsFrom]
  | t :: ts =>
    simp only [partsFrom, List.mem_append, List.mem_map, Prod.exists, mem_partsFrom_iff ts]
    constructor
    · rintro (⟨rest, u, mem, same⟩ | ⟨j, rest, u, rfl, found, last⟩)
      · cases same
        exact ⟨0, rest, t, rfl, rfl, (mem_parts_iff t rest part).mp mem⟩
      · exact ⟨j + 1, rest, u, by rw [Nat.add_right_comm, Nat.add_assoc], found, last⟩
    · rintro ⟨_ | j, rest, u, rfl, found, last⟩
      · cases found
        exact .inl ⟨rest, part, (mem_parts_iff t rest part).mpr last, rfl⟩
      · exact .inr ⟨j, rest, u, by rw [Nat.add_right_comm, Nat.add_assoc], found, last⟩

end

mutual

/-- A node stands before its children, and a child with all below it before the next one. -/
theorem pairwise_parts (t : Tree) : t.parts.Pairwise (·.1 < ·.1) := by
  match t with
  | missing | token .. => exact List.pairwise_singleton _ _
  | node label place children =>
    refine List.pairwise_cons.mpr ⟨?_, pairwise_partsFrom 0 children⟩
    rintro ⟨way, part⟩ mem
    obtain ⟨j, rest, t, rfl, -, -⟩ := (mem_partsFrom_iff children 0 way part).mp mem
    exact List.nil_lt_cons _ _

theorem pairwise_partsFrom (i : Nat) (ts : List Tree) :
    (partsFrom i ts).Pairwise (·.1 < ·.1) := by
  match ts with
  | [] => exact .nil
  | t :: ts =>
    refine List.pairwise_append.mpr ⟨?_, pairwise_partsFrom (i + 1) ts, ?_⟩
    · refine List.pairwise_map.mpr ((pairwise_parts t).imp fun before => ?_)
      exact List.cons_lt_cons_iff.mpr (.inr ⟨rfl, before⟩)
    · rintro _ here ⟨way, part⟩ there
      obtain ⟨⟨rest, u⟩, -, rfl⟩ := List.mem_map.mp here
      obtain ⟨j, rest', u', rfl, -, -⟩ := (mem_partsFrom_iff ts (i + 1) way part).mp there
      exact List.cons_lt_cons_iff.mpr (.inl (by omega))

end

/-! ## Lines -/

mutual

/-- The lines of a tree that lies `depth` deep: how deep each part lies, and what its line says. -/
def rows (depth : Nat) : Tree → List (Nat × String)
  | missing => [(depth, caption missing)]
  | token kind text place => [(depth, caption (token kind text place))]
  | node label place children =>
    (depth, caption (node label place children)) :: rowsOf (depth + 1) children

def rowsOf (depth : Nat) : List Tree → List (Nat × String)
  | [] => []
  | t :: ts => rows depth t ++ rowsOf depth ts

end

mutual

theorem rows_eq (depth : Nat) (t : Tree) :
    t.rows depth = t.parts.map fun (way, part) => (depth + way.length, part.caption) := by
  match t with
  | missing | token .. => rfl
  | node label place children =>
    rw [rows, rowsOf_eq depth children 0, parts, List.map_cons]
    rfl

theorem rowsOf_eq (depth : Nat) (ts : List Tree) (i : Nat) : rowsOf (depth + 1) ts =
    (partsFrom i ts).map fun (way, part) => (depth + way.length, part.caption) := by
  match ts with
  | [] => rfl
  | t :: ts =>
    rw [rowsOf, rows_eq (depth + 1) t, rowsOf_eq depth ts (i + 1), partsFrom, List.map_append,
      List.map_map]
    refine congrArg (· ++ _) (List.map_congr_left fun x _ => ?_)
    simp [Nat.add_right_comm, Nat.add_assoc]

end

def spaces (n : Nat) : String := .ofList (List.replicate n ' ')

theorem spaces_append (n k : Nat) : spaces n ++ spaces k = spaces (n + k) := by
  rw [spaces, spaces, ← String.ofList_append, List.replicate_append_replicate, spaces]

/-- The line of a row, each level set in by `width` spaces. -/
def lineOf (width : Nat) (row : Nat × String) : String := spaces (row.1 * width) ++ row.2

section

variable (width : Nat)

mutual

theorem outline_eq (depth : Nat) (t : Tree) :
    outline (spaces width) (spaces (depth * width)) t = (t.rows depth).map (lineOf width) := by
  match t with
  | missing | token .. => rfl
  | node label place children =>
    rw [outline, outlineAll_eq depth children]
    rfl

theorem outlineAll_eq (depth : Nat) (ts : List Tree) :
    outlineAll (spaces width) (spaces (depth * width) ++ spaces width) ts =
      (rowsOf (depth + 1) ts).map (lineOf width) := by
  match ts with
  | [] => rfl
  | t :: ts =>
    have inward : spaces (depth * width) ++ spaces width = spaces ((depth + 1) * width) := by
      rw [spaces_append, Nat.succ_mul]
    rw [outlineAll, outlineAll_eq depth ts, rowsOf, List.map_append, inward,
      outline_eq (depth + 1) t]

end

end

/-! ## What a line says -/

/-- How deep the part of a line lies, and what the line says. -/
def readRow (width : Nat) (line : String) : Nat × String :=
  ((line.toList.takeWhile (· == ' ')).length / width, .ofList (line.toList.dropWhile (· == ' ')))

/-- It does not begin with a space, and is all on one line. -/
structure IsCaption (s : String) : Prop where
  head : s.toList.head? ≠ some ' '
  line : '\n' ∉ s.toList

theorem readRow_lineOf {width : Nat} (wide : 0 < width) {row : Nat × String}
    (caption : IsCaption row.2) : readRow width (lineOf width row) = row := by
  have pad : ∀ c ∈ List.replicate (row.1 * width) ' ', (c == ' ') = true := by simp
  have stop : ∀ c, row.2.toList.head? = some c → (c == ' ') = false := by
    rintro c head
    simpa using fun same : c = ' ' => caption.head (same ▸ head)
  rw [readRow, lineOf, spaces, String.toList_append, String.toList_ofList,
    takeWhile_append_stop pad stop, dropWhile_append_stop pad stop, List.length_replicate,
    Nat.mul_div_cancel _ wide, String.ofList_toList]

/-- It has no blanks. -/
def IsWord (s : String) : Prop := ∀ c ∈ s.toList, Text.isBlank c = false

/-- A part that a program may have: it belongs to the language, and a token is one word. -/
def isPlain : Tree → Bool
  | missing => true
  | token kind text _ => kind ∈ TokenKind.all && text.toList.all (!Text.isBlank ·)
  | node label _ _ => label ∈ Label.all

def Plain (t : Tree) : Prop := t.all isPlain

instance (t : Tree) : Decidable t.Plain := inferInstanceAs (Decidable (_ = true))

@[simp]
theorem plain_missing : missing.Plain := rfl

theorem plain_node_iff {label : Label} {place : Option Place} {children : List Tree} :
    (node label place children).Plain ↔ label ∈ Label.all ∧ ∀ c ∈ children, c.Plain := by
  rw [Plain, all, allOf_eq_all, Bool.and_eq_true, isPlain, decide_eq_true_iff, List.all_eq_true]
  rfl

theorem plain_token_iff {kind : TokenKind} {text : String} {place : Option Place} :
    (token kind text place).Plain ↔ kind ∈ TokenKind.all ∧ IsWord text := by
  rw [Plain, all, isPlain, Bool.and_eq_true, decide_eq_true_iff, List.all_eq_true, IsWord]
  simp

theorem plain_of_mem_parts {t part : Tree} {way : List Nat} (plain : t.Plain)
    (mem : (way, part) ∈ t.parts) : part.Plain := by
  rw [mem_parts_iff] at mem
  induction way generalizing t with
  | nil =>
    cases mem
    exact plain
  | cons i way ih =>
    obtain ⟨c, child, below⟩ := Option.bind_eq_some_iff.mp mem
    refine ih ?_ below
    cases t with
    | node => exact (plain_node_iff.mp plain).2 c (List.mem_of_getElem? child)
    | _ => cases child

theorem isWord_of_all {s : String} (h : s.toList.all (!Text.isBlank ·) = true) : IsWord s :=
  fun c mem => by simpa using List.all_eq_true.mp h c mem

theorem isWord_label {l : Label} (known : l ∈ Label.all) : IsWord l.name := by
  have words : (Label.all.all fun l => l.name.toList.all (!Text.isBlank ·)) = true := by
    decide +kernel
  exact isWord_of_all (List.all_eq_true.mp words l known)

theorem isWord_kind {k : TokenKind} (known : k ∈ TokenKind.all) : IsWord k.name := by
  have words : (TokenKind.all.all fun k => k.name.toList.all (!Text.isBlank ·)) = true := by
    decide +kernel
  exact isWord_of_all (List.all_eq_true.mp words k known)

theorem IsWord.not_mem_space {s : String} (h : IsWord s) : ' ' ∉ s.toList :=
  fun mem => absurd (h ' ' mem) (by decide)

theorem IsWord.isCaption {s : String} (h : IsWord s) : IsCaption s where
  head head := h.not_mem_space (List.mem_of_head? head)
  line mem := absurd (h '\n' mem) (by decide)

theorem toList_caption_token (kind : TokenKind) (text : String) (place : Option Place) :
    (token kind text place).caption.toList = kind.name.toList ++ ' ' :: ' ' :: text.toList := by
  simp [caption, String.toList_append]

theorem takeWhile_caption {kind : TokenKind} (known : kind ∈ TokenKind.all) (text : String)
    (place : Option Place) :
    (token kind text place).caption.toList.takeWhile (· != ' ') = kind.name.toList := by
  rw [toList_caption_token]
  refine takeWhile_append_stop (fun c mem => ?_) (by simp)
  exact bne_iff_ne.mpr fun blank => (isWord_kind known).not_mem_space (blank ▸ mem)

theorem Plain.isCaption {t : Tree} (plain : t.Plain) : IsCaption t.caption := by
  cases t with
  | missing => exact ⟨by decide, by decide⟩
  | token kind text place =>
    obtain ⟨known, word⟩ := plain_token_iff.mp plain
    have some : ∀ k ∈ TokenKind.all, k.name.toList ≠ [] := by decide
    obtain ⟨c, cs, hc⟩ := List.exists_cons_of_ne_nil (some kind known)
    have name := (isWord_kind known).isCaption
    have head := name.head
    rw [hc] at head
    constructor
    · rw [toList_caption_token, hc]
      exact head
    · rw [toList_caption_token]
      simpa [name.line] using word.isCaption.line
  | node label place children => exact (isWord_label (plain_node_iff.mp plain).1).isCaption

/-- A part by itself: without its place and its children. -/
def top : Tree → Tree
  | missing => missing
  | token kind text _ => token kind text none
  | node label _ _ => node label none []

/-- Lines tell parts apart: only that of a token has spaces in it, and a hyphen is no label. -/
theorem top_eq_of_caption {t t' : Tree} (plain : t.Plain) (plain' : t'.Plain)
    (same : t.caption = t'.caption) : t.top = t'.top := by
  have labels : ∀ l ∈ Label.all, ∀ l' ∈ Label.all, l.name = l'.name → l = l' := by decide
  have kinds : ∀ k ∈ TokenKind.all, ∀ k' ∈ TokenKind.all, k.name = k'.name → k = k' := by decide
  have hyphen : ∀ l ∈ Label.all, l.name ≠ "-" := by decide
  have spaced (kind : TokenKind) (text : String) (place : Option Place) :
      ' ' ∈ (token kind text place).caption.toList := by simp [toList_caption_token]
  have solid {label : Label} (known : label ∈ Label.all) (kind : TokenKind) (text : String)
      (place : Option Place) : label.name ≠ (token kind text place).caption :=
    fun same => (isWord_label known).not_mem_space (same ▸ spaced kind text place)
  cases t with
  | missing =>
    cases t' with
    | missing => rfl
    | token kind text place => exact absurd (same ▸ spaced kind text place) (by decide)
    | node label => exact absurd same.symm (hyphen label (plain_node_iff.mp plain').1)
  | token kind text place =>
    cases t' with
    | missing => exact absurd (same ▸ spaced kind text place) (by decide)
    | token kind' text' place' =>
      have known := (plain_token_iff.mp plain).1
      have known' := (plain_token_iff.mp plain').1
      have names : kind.name.toList = kind'.name.toList := by
        rw [← takeWhile_caption known text place, same, takeWhile_caption known']
      obtain rfl := kinds kind known kind' known' (String.toList_injective names)
      have texts := congrArg String.toList same
      rw [toList_caption_token, toList_caption_token] at texts
      obtain rfl : text = text' := String.toList_injective (by simpa using texts)
      rfl
    | node label => exact absurd same.symm (solid (plain_node_iff.mp plain').1 kind text place)
  | node label place children =>
    have known := (plain_node_iff.mp plain).1
    cases t' with
    | missing => exact absurd same (hyphen label known)
    | token kind text place => exact absurd same (solid known kind text place)
    | node label' place' children' =>
      obtain rfl := labels label known label' (plain_node_iff.mp plain').1 same
      rfl

/-! ## Rows -/

/-- The first row does not lie as far down as `depth`. -/
def Outside (depth : Nat) (rows : List (Nat × String)) : Prop := ∀ row ∈ rows.head?, row.1 < depth

theorem exists_rows (depth : Nat) (t : Tree) :
    ∃ below, t.rows depth = (depth, t.caption) :: below := by
  cases t <;> exact ⟨_, rfl⟩

theorem outside_rowsOf {depth : Nat} {rest : List (Nat × String)} (out : Outside depth rest)
    (ts : List Tree) : Outside (depth + 1) (rowsOf depth ts ++ rest) := by
  cases ts with
  | nil => exact fun row head => Nat.lt_succ_of_lt (out row head)
  | cons t ts =>
    obtain ⟨below, here⟩ := exists_rows depth t
    rw [rowsOf, here]
    rintro _ ⟨⟩
    exact Nat.lt_succ_self depth

mutual

/-- The rows of a tree end where one follows that does not lie below it. -/
theorem bare_eq_of_rows (t t' : Tree) {depth : Nat} {rest rest' : List (Nat × String)}
    (plain : t.Plain) (plain' : t'.Plain) (out : Outside (depth + 1) rest)
    (out' : Outside (depth + 1) rest') (same : t.rows depth ++ rest = t'.rows depth ++ rest') :
    t.bare = t'.bare ∧ rest = rest' := by
  have tops : t.top = t'.top := by
    obtain ⟨below, here⟩ := exists_rows depth t
    obtain ⟨below', here'⟩ := exists_rows depth t'
    rw [here, here'] at same
    exact top_eq_of_caption plain plain' (congrArg Prod.snd (List.cons.inj same).1)
  match t, t' with
  | missing, missing => exact ⟨rfl, (List.cons.inj same).2⟩
  | token .., token .. =>
    rw [bare_token, bare_token]
    exact ⟨tops, (List.cons.inj same).2⟩
  | node label place children, node label' place' children' =>
    obtain rfl : label = label' := by injection tops
    obtain ⟨bares, rests⟩ := bares_eq_of_rows children children' (plain_node_iff.mp plain).2
      (plain_node_iff.mp plain').2 out out' (List.cons.inj same).2
    rw [bare_node, bare_node, bares]
    exact ⟨rfl, rests⟩

theorem bares_eq_of_rows (ts ts' : List Tree) {depth : Nat} {rest rest' : List (Nat × String)}
    (plain : ∀ t ∈ ts, t.Plain) (plain' : ∀ t ∈ ts', t.Plain) (out : Outside depth rest)
    (out' : Outside depth rest') (same : rowsOf depth ts ++ rest = rowsOf depth ts' ++ rest') :
    ts.map bare = ts'.map bare ∧ rest = rest' := by
  match ts, ts' with
  | [], [] => exact ⟨rfl, same⟩
  | t :: ts, [] =>
    obtain ⟨below, here⟩ := exists_rows depth t
    rw [rowsOf, rowsOf, here] at same
    exact absurd (out' (depth, t.caption) (congrArg List.head? same).symm) (Nat.lt_irrefl depth)
  | [], t :: ts =>
    obtain ⟨below, here⟩ := exists_rows depth t
    rw [rowsOf, rowsOf, here] at same
    exact absurd (out (depth, t.caption) (congrArg List.head? same)) (Nat.lt_irrefl depth)
  | t :: ts, t' :: ts' =>
    obtain ⟨first, others⟩ := List.forall_mem_cons.mp plain
    obtain ⟨first', others'⟩ := List.forall_mem_cons.mp plain'
    rw [rowsOf, rowsOf, List.append_assoc, List.append_assoc] at same
    obtain ⟨here, rest⟩ := bare_eq_of_rows t t' first first' (outside_rowsOf out ts)
      (outside_rowsOf out' ts') same
    obtain ⟨there, rests⟩ := bares_eq_of_rows ts ts' others others' out out' rest
    rw [List.map_cons, List.map_cons, here, there]
    exact ⟨rfl, rests⟩

end

/-! ## Whole outlines -/

section

variable {t t' : Tree} (width : Nat)

theorem pretty_eq (t : Tree) :
    t.pretty (spaces width) = "\n".intercalate ((t.rows 0).map (lineOf width)) := by
  rw [← outline_eq, Nat.zero_mul]
  rfl

theorem isCaption_of_mem_rows (plain : t.Plain) {row : Nat × String} (mem : row ∈ t.rows 0) :
    IsCaption row.2 := by
  rw [rows_eq] at mem
  obtain ⟨⟨way, part⟩, found, rfl⟩ := List.mem_map.mp mem
  exact (plain_of_mem_parts plain found).isCaption

/-- No line of an outline breaks. -/
theorem pieces_pretty (plain : t.Plain) :
    Text.pieces (t.pretty (spaces width)) = (t.rows 0).map (lineOf width) := by
  obtain ⟨below, here⟩ := exists_rows 0 t
  have unbroken : ∀ l ∈ ((t.rows 0).map (lineOf width)).map String.toList, '\n' ∉ l := by
    refine List.forall_mem_map.mpr (List.forall_mem_map.mpr fun row mem => ?_)
    simp [lineOf, spaces, (isCaption_of_mem_rows plain mem).line]
  rw [pretty_eq, Text.pieces, String.toList_intercalate]
  refine (congrArg _ (List.splitOn_intercalate '\n' unbroken (by simp [here]))).trans ?_
  simp [Function.comp_def]

variable {width}

theorem readRow_pieces (wide : 0 < width) (plain : t.Plain) :
    (Text.pieces (t.pretty (spaces width))).map (readRow width) = t.rows 0 := by
  rw [pieces_pretty width plain, List.map_map]
  refine (List.map_congr_left fun row mem => ?_).trans (List.map_id _)
  exact readRow_lineOf wide (isCaption_of_mem_rows plain mem)

mutual

theorem rows_bare (depth : Nat) (t : Tree) : t.bare.rows depth = t.rows depth := by
  match t with
  | missing => rfl
  | token .. =>
    rw [bare_token]
    rfl
  | node _ _ children =>
    rw [bare_node, rows, rowsOf_bare (depth + 1) children]
    rfl

theorem rowsOf_bare (depth : Nat) (ts : List Tree) :
    rowsOf depth (ts.map bare) = rowsOf depth ts := by
  match ts with
  | [] => rfl
  | t :: ts => rw [List.map_cons, rowsOf, rowsOf, rows_bare depth t, rowsOf_bare depth ts]

end

/-- Outlines are equal where the trees are, places aside. -/
theorem pretty_eq_iff (wide : 0 < width) (plain : t.Plain) (plain' : t'.Plain) :
    t.pretty (spaces width) = t'.pretty (spaces width) ↔ t.bare = t'.bare := by
  constructor
  · intro same
    have rows : t.rows 0 = t'.rows 0 := by
      rw [← readRow_pieces wide plain, same, readRow_pieces wide plain']
    have none : Outside 1 [] := nofun
    exact (bare_eq_of_rows t t' plain plain' none none (by rw [rows])).1
  · intro same
    rw [pretty_eq, pretty_eq, ← rows_bare, same, rows_bare]

end

/-! ## Programs -/

theorem plain_sequence {place : Option Place} {ts : List Tree} (h : ∀ t ∈ ts, t.Plain) :
    (sequence place ts).Plain :=
  all_sequence (fun _ => rfl) (fun _ _ => rfl) h

theorem plain_of_bare {t : Tree} (h : t.bare.Plain) : t.Plain := by
  refine (all_bare (fun t => ?_) t).symm.trans h
  cases t with
  | missing => rfl
  | token =>
    rw [bare_token]
    rfl
  | node =>
    rw [bare_node]
    rfl

end Tree

namespace Source

open Scriptlet.Tree

theorem plain_nameTree {x : String} (h : IsIdentifier x) : (nameTree x).Plain :=
  plain_token_iff.mpr ⟨by decide, fun _ => Lexeme.Valid.solid (l := .word x) h⟩

theorem plain_undefinedTree : undefinedTree.Plain := by decide

theorem Operator.plain {sym : Symbol} {m : Mark} {label : Label} {kept : List Tree}
    (h : Operator sym m label kept) : label ∈ Label.all ∧ ∀ t ∈ kept, t.Plain := by
  cases h with
  | or | and => exact ⟨by decide, fun _ => nofun⟩
  | _ => exact ⟨by decide, List.forall_mem_singleton.mpr (by decide)⟩

theorem Constant.plain {s : String} {kind : TokenKind} (h : Constant s kind) :
    (Tree.token kind s none).Plain := by
  cases h <;> decide

/-- Derivations make their trees of what belongs to the language. -/
theorem Derives.plain {allowed : String → Prop} {sym : Symbol} {ts : List Lexeme}
    {trees : List Tree} (h : Derives allowed sym ts trees) : ∀ t ∈ trees, t.Plain := by
  induction h with
  | start _ ih | block _ ih => exact List.forall_mem_singleton.mpr (plain_sequence ih)
  | number hn =>
    refine List.forall_mem_singleton.mpr (plain_token_iff.mpr ⟨by decide, ?_⟩)
    exact fun _ => Lexeme.Valid.solid (l := .numeral _) hn
  | constant hc => exact List.forall_mem_singleton.mpr hc.plain
  | binary op _ _ _ left right =>
    refine List.forall_mem_singleton.mpr (plain_node_iff.mpr ⟨op.plain.1, ?_⟩)
    refine List.forall_mem_cons.mpr ⟨?_, ?_⟩
    · exact List.forall_mem_singleton.mp left
    · exact List.forall_mem_append.mpr ⟨op.plain.2, right⟩
  | before hm | behind hm => cases hm <;> simp_all [plain_node_iff, Label.all]
  | _ => simp_all [plain_node_iff, plain_nameTree, plain_undefinedTree, Label.all]

theorem plain_of_parse {src : String} {t : Tree} (h : parse src = .ok t) : t.Plain := by
  obtain ⟨p, read, rfl⟩ := parse_eq_ok_iff.mp h
  obtain ⟨tokens, st, scanned, run, ended⟩ := readProgram_eq_ok_iff.mp read
  exact plain_of_bare ((derives_of_run scanned run ended).plain _ List.mem_cons_self)

/-- Outlines lose nothing: those of two programs are equal where their trees are, places aside, and
each has one line for each part of the tree, in preorder. -/
theorem outlines_keep_trees {src src' : String} {t t' : Tree} (read : parse src = .ok t)
    (read' : parse src' = .ok t') {width : Nat} (wide : 0 < width) :
    (t.pretty (spaces width) = t'.pretty (spaces width) ↔ t.bare = t'.bare) ∧
      Text.pieces (t.pretty (spaces width)) =
        t.parts.map (fun (way, part) => spaces (way.length * width) ++ part.caption) ∧
      t.parts.Pairwise (·.1 < ·.1) ∧
      ∀ way part, (way, part) ∈ t.parts ↔ t.part? way = some part := by
  refine ⟨pretty_eq_iff wide (plain_of_parse read) (plain_of_parse read'), ?_, pairwise_parts t,
    mem_parts_iff t⟩
  rw [pieces_pretty width (plain_of_parse read), rows_eq, List.map_map]
  refine List.map_congr_left fun (way, part) _ => ?_
  change spaces ((0 + way.length) * width) ++ part.caption = _
  rw [Nat.zero_add]

/-- Two spellings of one tree, which has no name for its function. -/
theorem outlines_keep_trees_function : ∃ t t',
    parse "var f = function () \x7b return; \x7d;" = .ok t ∧
    parse "var f = // a name\n  function () \x7b return undefined; \x7d;" = .ok t' ∧
    (t.pretty (spaces 1) = t'.pretty (spaces 1) ↔ t.bare = t'.bare) ∧
    Text.pieces (t.pretty (spaces 1)) =
      t.parts.map (fun (way, part) => spaces (way.length * 1) ++ part.caption) ∧
    t.parts.Pairwise (·.1 < ·.1) ∧
    (∀ way part, (way, part) ∈ t.parts ↔ t.part? way = some part) := by
  obtain ⟨t, read⟩ := exists_tree "var f = function () \x7b return; \x7d;" (by decide +kernel)
  obtain ⟨t', read'⟩ := exists_tree "var f = // a name\n  function () \x7b return undefined; \x7d;"
    (by decide +kernel)
  exact ⟨t, t', read, read', outlines_keep_trees read read' Nat.one_pos⟩

example : (parse "var f = function () \x7b return; \x7d;").toOption.map
    (fun t => Text.pieces (t.pretty (spaces 1))) =
      some ["decl", " IDENT  f", " defun", "  -", "  params", "  ret",
        "   UNDEFINED  undefined"] := by decide +kernel

end Source
end Scriptlet
