import Treewalk.Proofs.Text.Quoted
import Treewalk.Proofs.Token.Longest

/-!
# Nested lists as text

An outline is a text of nested lists, whose items stand in parentheses with spaces between them. What is
no list is a word or a quoted string. A word has no characters in it at which an item ends, and does not
begin like a list or a string (`IsBare`). So the text of an item can be told from what follows it
(`Item.Plain.readOnce`), and the items of a list, or of a text with one item in each line, can be told
from their texts (`joined_inj`).
-/

namespace Treewalk

/-- The characters that can follow an item. -/
def endsItem (c : Char) : Bool := c = ' ' || c = ')' || c = '\n'

/-- A word that can be an item: it goes on up to a character that ends it. -/
structure IsBare (word : String) : Prop where
  start : word.toList.head?.any (fun c => c ≠ '(' && c ≠ '\'' && c ≠ '"') = true
  rest : word.toList.all (fun c => !endsItem c) = true

/-- Characters can be looked at one by one. -/
instance : DecidablePred IsBare := fun word =>
  decidable_of_iff (word.toList.head?.any (fun c => c ≠ '(' && c ≠ '\'' && c ≠ '"') = true ∧
    word.toList.all (fun c => !endsItem c) = true) ⟨fun h => ⟨h.1, h.2⟩, fun h => ⟨h.1, h.2⟩⟩

/-- An item of an outline. -/
inductive Item where
  | word (text : String)
  | quoted (text : String)
  | list (items : List Item)

namespace Item

mutual

/-- The text of an item. -/
def text : Item → List Char
  | .word text => text.toList
  | .quoted text => Text.quotedChars text.toList
  | .list items => '(' :: ([' '].intercalate (texts items) ++ [')'])

/-- The texts of items. -/
def texts : List Item → List (List Char)
  | [] => []
  | item :: items => item.text :: texts items

end

/-- The words of an item can be read back. -/
inductive Plain : Item → Prop
  | word {text : String} (h : IsBare text) : Plain (.word text)
  | quoted (text : String) : Plain (.quoted text)
  | list {items : List Item} (h : ∀ item ∈ items, Plain item) : Plain (.list items)

end Item

/-- What follows an item begins with a character that ends it, or is empty. -/
def EndsItem (rest : List Char) : Prop := ∀ c ∈ rest.head?, endsItem c = true

/-- An item ends where such a character comes. -/
theorem endsItem_cons {c : Char} (h : endsItem c = true) (rest : List Char) : EndsItem (c :: rest) := by
  intro d hd
  cases hd
  exact h

/-- A word begins neither like a list nor like a string. -/
theorem IsBare.head {word : String} (h : IsBare word) :
    ∃ c cs, word.toList = c :: cs ∧ c ≠ '(' ∧ c ≠ '\'' ∧ c ≠ '"' := by
  have hstart := h.start
  cases hword : word.toList with
  | nil =>
    rw [hword] at hstart
    cases hstart
  | cons c cs =>
    rw [hword] at hstart
    simp only [List.head?_cons, Option.any_some, Bool.and_eq_true, decide_eq_true_eq] at hstart
    exact ⟨c, cs, rfl, hstart.1.1, hstart.1.2, hstart.2⟩

/-- A word goes on up to the character that ends it. -/
theorem IsBare.run {word : String} (h : IsBare word) {rest : List Char} (hrest : EndsItem rest) :
    Run (fun c => !endsItem c) word.toList rest :=
  ⟨List.all_eq_true.1 h.rest, fun c hc => by rw [hrest c hc]; rfl⟩

namespace Item

variable {item item' : Item} {items items' : List Item} {separator : Char} {rest rest' : List Char}

/-- What an item of its kind begins with. -/
def Opens (c : Char) : Item → Prop
  | .word _ => c ≠ '(' ∧ c ≠ '\'' ∧ c ≠ '"'
  | .quoted _ => c = '\'' ∨ c = '"'
  | .list _ => c = '('

/-- An item does not begin with a character that ends one. -/
theorem Plain.head (h : item.Plain) :
    ∃ c cs, item.text = c :: cs ∧ item.Opens c ∧ endsItem c = false := by
  cases h with
  | @word text h =>
    obtain ⟨c, cs, htext, hc⟩ := h.head
    have hends := List.all_eq_true.1 h.rest c (by rw [htext]; exact List.mem_cons_self)
    exact ⟨c, cs, htext, hc, by simpa using hends⟩
  | quoted text =>
    have hquote := Text.enclosingQuote_eq text.toList
    refine ⟨_, _, rfl, hquote, ?_⟩
    obtain heq | heq := hquote <;> rw [heq] <;> rfl
  | list h => exact ⟨'(', _, rfl, rfl, rfl⟩

/-- Items with the same text are of the same kind. -/
theorem exists_opens (h : item.Plain) (h' : item'.Plain) (heq : item.text ++ rest = item'.text ++ rest') :
    ∃ c, item.Opens c ∧ item'.Opens c := by
  obtain ⟨c, cs, htext, hopens, -⟩ := h.head
  obtain ⟨c', cs', htext', hopens', -⟩ := h'.head
  rw [htext, htext'] at heq
  obtain rfl := (List.cons.inj heq).1
  exact ⟨c, hopens, hopens'⟩

/-! ## Items one after the other -/

/-- What follows the first of some items. -/
def more (separator : Char) (items : List Item) (rest : List Char) : List Char :=
  if items = [] then rest else separator :: ([separator].intercalate (texts items) ++ rest)

/-- Of items with separators the first is read, and then more of them. -/
theorem joined_cons (separator : Char) (item : Item) (items : List Item) (rest : List Char) :
    [separator].intercalate (texts (item :: items)) ++ rest =
      item.text ++ more separator items rest := by
  cases items with
  | nil => simp [texts, more]
  | cons item' items => simp [texts, more]

/-- The items of a list, or of a text with one in each line, have come to an end. -/
def EndsList (separator : Char) (rest : List Char) : Prop :=
  EndsItem rest ∧ rest.head? ≠ some separator

/-- Behind an item come a separator and another one, or the end of the list. -/
theorem endsItem_more (hseparator : endsItem separator = true) (h : EndsList separator rest)
    (items : List Item) : EndsItem (more separator items rest) := by
  unfold more
  split
  · exact h.1
  · exact endsItem_cons hseparator _

/-- The text of an item can be told from what follows it, and the item from its text. -/
def ReadOnce (item : Item) : Prop :=
  ∀ {item' : Item} {rest rest' : List Char}, item'.Plain → EndsItem rest → EndsItem rest' →
    item.text ++ rest = item'.text ++ rest' → item = item' ∧ rest = rest'

/-- Items can be told from their texts, if each of them can. -/
theorem joined_inj (hseparator : endsItem separator = true) (hread : ∀ item ∈ items, item.ReadOnce)
    (hplain : ∀ item ∈ items, item.Plain) (hplain' : ∀ item ∈ items', item.Plain)
    (hrest : EndsList separator rest) (hrest' : EndsList separator rest')
    (h : [separator].intercalate (texts items) ++ rest =
      [separator].intercalate (texts items') ++ rest') : items = items' ∧ rest = rest' := by
  -- An item begins differently from what follows the last item.
  have hcontra : ∀ {item : Item} {us vs : List Char}, item.Plain → EndsItem us →
      us ≠ item.text ++ vs := by
    rintro item us vs hitem hus rfl
    obtain ⟨c, cs, htext, -, hc⟩ := hitem.head
    rw [htext] at hus
    rw [hus c rfl] at hc
    cases hc
  induction items generalizing items' with
  | nil =>
    cases items' with
    | nil => exact ⟨rfl, h⟩
    | cons item' items' =>
      rw [joined_cons] at h
      exact absurd h (hcontra (hplain' item' List.mem_cons_self) hrest.1)
  | cons item items ih =>
    rw [joined_cons] at h
    cases items' with
    | nil => exact absurd h.symm (hcontra (hplain item List.mem_cons_self) hrest'.1)
    | cons item' items' =>
      rw [joined_cons] at h
      obtain ⟨rfl, hmore⟩ := hread item List.mem_cons_self (hplain' item' List.mem_cons_self)
        (endsItem_more hseparator hrest items) (endsItem_more hseparator hrest' items') h
      unfold more at hmore
      split at hmore
      · next hnil =>
        subst hnil
        split at hmore
        · next hnil' => exact ⟨by rw [hnil'], hmore⟩
        · exact absurd (congrArg List.head? hmore) hrest.2
      · split at hmore
        · exact absurd (congrArg List.head? hmore).symm hrest'.2
        · obtain ⟨rfl, hrests⟩ := ih (fun i hi => hread i (List.mem_cons_of_mem _ hi))
            (fun i hi => hplain i (List.mem_cons_of_mem _ hi))
            (fun i hi => hplain' i (List.mem_cons_of_mem _ hi)) (List.cons.inj hmore).2
          exact ⟨rfl, hrests⟩

/-- A plain item can be told from its text, which can be told from what follows it. -/
theorem Plain.readOnce (h : item.Plain) : item.ReadOnce := by
  -- The first character tells words, quoted texts and lists from each other.
  induction h with
  | @word text h =>
    intro item' rest rest' h' hrest hrest' heq
    obtain ⟨c, hopens, hopens'⟩ := exists_opens (.word h) h' heq
    cases h' with
    | @word text' h' =>
      have hsplit := (h.run hrest).split
      rw [show text.toList ++ rest = text'.toList ++ rest' from heq, (h'.run hrest').split.1,
        (h'.run hrest').split.2] at hsplit
      exact ⟨congrArg Item.word (String.toList_inj.1 hsplit.1.symm), hsplit.2.symm⟩
    | quoted text' => exact (hopens'.elim hopens.2.1 hopens.2.2).elim
    | list h' => exact (hopens.1 hopens').elim
  | quoted text =>
    intro item' rest rest' h' hrest hrest' heq
    obtain ⟨c, hopens, hopens'⟩ := exists_opens (.quoted text) h' heq
    cases h' with
    | @word text' h' => exact (hopens.elim hopens'.2.1 hopens'.2.2).elim
    | quoted text' =>
      obtain ⟨htext, hrests⟩ := Text.quotedChars_append_inj heq
      exact ⟨congrArg Item.quoted (String.toList_inj.1 htext), hrests⟩
    | list h' =>
      obtain rfl : c = '(' := hopens'
      rcases hopens with hopens | hopens <;> cases hopens
  | @list items h ih =>
    intro item' rest rest' h' hrest hrest' heq
    obtain ⟨c, hopens, hopens'⟩ := exists_opens (.list h) h' heq
    obtain rfl : c = '(' := hopens
    cases h' with
    | word h' => exact (hopens'.1 rfl).elim
    | quoted text' => rcases hopens' with hopens' | hopens' <;> cases hopens'
    | @list items' h' =>
      have htail : ([' '].intercalate (texts items) ++ [')']) ++ rest =
        ([' '].intercalate (texts items') ++ [')']) ++ rest' := (List.cons.inj heq).2
      rw [List.append_assoc, List.append_assoc] at htail
      have hends : ∀ rest, EndsList ' ' (')' :: rest) := fun rest => ⟨endsItem_cons rfl rest, nofun⟩
      obtain ⟨rfl, hrests⟩ := joined_inj rfl ih h h' (hends rest) (hends rest') htail
      exact ⟨rfl, (List.cons.inj hrests).2⟩

end Item

end Treewalk
