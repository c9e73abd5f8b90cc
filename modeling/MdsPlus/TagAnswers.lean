import MdsPlus.TagSearch

/-!
Answers of the tag search used as patterns. The names in an answer have no wildcards and no
colons, so the pattern is split where the answer was put together, and only its tree and its
tag match. The backslash is left out of the pattern but not of the length of the tree name.
-/

namespace MdsPlus.TagAnswers

open StrMatchWild Subtrees TagTable TagInvariant TagSearch Wildcards

/-! ### Names -/

theorem isTagChar_ne {c : CChar} (h : isTagChar c = true) :
    c ≠ 0 ∧ c ≠ 9 ∧ c ≠ 32 ∧ c ≠ 37 ∧ c ≠ 42 ∧ c ≠ 58 ∧ c ≠ 92 := by
  refine ⟨?_, ?_, ?_, ?_, ?_, ?_, ?_⟩ <;> rintro rfl <;> exact absurd h (by decide)

theorem toupper_tagChar {c : CChar} (h : isTagChar c = true) : toupper c = c := by
  simp only [isTagChar, isAlpha, Bool.or_eq_true, Bool.and_eq_true, decide_eq_true_eq,
    Fin.le_def] at h
  unfold toupper
  rw [if_neg]
  rintro ⟨hlow, -⟩
  rw [Fin.le_def] at hlow
  rcases h with (⟨_, h⟩ | ⟨_, h⟩) | h
  · exact absurd (Nat.le_trans hlow h) (by decide)
  · exact absurd (Nat.le_trans hlow h) (by decide)
  · rw [h] at hlow
    exact absurd hlow (by decide)

/-- A name that may stand in a pattern for itself. -/
def Named (name : List CChar) : Prop := ∀ c ∈ name, isTagChar c = true

theorem matchWild_literal {cand pat : List CChar} (h : ∀ c ∈ pat, c ≠ 42 ∧ c ≠ 37) :
    matchWild cand pat = true ↔ cand = pat := by
  rw [matchWild_iff]
  apply matches_literal_iff
  intro c hc
  simp [strSymbol, h c hc]

section Named

variable {name : List CChar} (h : Named name)

include h

theorem map_toupper_named : name.map toupper = name :=
  (List.map_congr_left fun c hc => toupper_tagChar (h c hc)).trans (List.map_id _)

theorem not_mem_named {c : CChar} (hc : isTagChar c = false) : c ∉ name := by
  intro hmem
  rw [h c hmem] at hc
  cases hc

theorem matchWild_named (cand : List CChar) : matchWild cand name = true ↔ cand = name := by
  refine matchWild_literal fun c hc => ?_
  obtain ⟨-, -, -, hany, hstar, -⟩ := isTagChar_ne (h c hc)
  exact ⟨hstar, hany⟩

end Named

theorem named_top : Named top := List.all_eq_true.1 rfl

theorem isTagChar_of_isAlpha {c : CChar} (h : isAlpha c = true) : isTagChar c = true := by
  simp [isTagChar, h]

theorem legal_named {tag : List CChar} (h : legal tag = true) : Named tag := by
  cases tag with
  | nil => cases h
  | cons c cs =>
    simp only [legal, Bool.and_eq_true, List.all_eq_true] at h
    intro d hd
    rcases List.mem_cons.1 hd with rfl | hd
    · exact isTagChar_of_isAlpha h.1
    · exact h.2 d hd

theorem strTrim_append_blanks (tag : List CChar) (n : ℕ) :
    strTrim (tag ++ List.replicate n 32) = strTrim tag := by
  induction n with
  | zero => simp
  | succ n ih =>
    rw [List.replicate_succ', ← List.append_assoc, strTrim,
      List.rdropWhile_concat_pos _ _ _ (by simp)]
    exact ih

theorem strTrim_blankFilled {tag : List CChar} (h : Named tag) :
    strTrim (blankFilled tag) = tag := by
  rw [blankFilled, map_toupper_named h, strTrim_append_blanks, strTrim, List.rdropWhile_eq_self_iff]
  intro hne
  obtain ⟨-, htab, hblank, -⟩ := isTagChar_ne (h _ (List.getLast_mem hne))
  simp [htab, hblank]

section Tags

variable {t : OpenTree} {i : ℕ}

theorem legal_tagName (hi : i < t.tables.tags) :
    legal (strTrim (nameAt t.tables i)) = true ∧
      (strTrim (nameAt t.tables i)).length ≤ tagNameSize ∧
      nameAt t.tables i = blankFilled (strTrim (nameAt t.tables i)) := by
  obtain ⟨tag, hlegal, hlen, hname⟩ := t.tagged i hi
  rw [hname, strTrim_blankFilled (legal_named hlegal)]
  exact ⟨hlegal, hlen, rfl⟩

theorem tagName_injective {j : ℕ} (hi : i < t.tables.tags) (hj : j < t.tables.tags)
    (h : strTrim (nameAt t.tables i) = strTrim (nameAt t.tables j)) : i = j := by
  have hname : nameAt t.tables i = nameAt t.tables j := by
    rw [(legal_tagName hi).2.2, (legal_tagName hj).2.2, h]
  rcases Nat.lt_trichotomy i j with hlt | heq | hgt
  · exact absurd (t.sorted i j hlt hj) (by rw [hname]; exact lt_irrefl _)
  · exact heq
  · exact absurd (t.sorted j i hgt hi) (by rw [hname]; exact lt_irrefl _)

/-- The reserved tag, or one of the table. -/
def IsTag (t : OpenTree) (nextTag : Option ℕ) : Prop := ∀ i, nextTag = some i → i < t.tables.tags

theorem IsTag.named {nextTag : Option ℕ} (h : IsTag t nextTag) : Named (tagName t nextTag) := by
  cases nextTag with
  | none => exact named_top
  | some i => exact legal_named (legal_tagName (h i rfl)).1

theorem IsTag.ne_nil {nextTag : Option ℕ} (h : IsTag t nextTag) : tagName t nextTag ≠ [] := by
  cases nextTag with
  | none => exact List.cons_ne_nil _ _
  | some i =>
    intro hnil
    rw [tagName] at hnil
    have hlegal := (legal_tagName (h i rfl)).1
    rw [hnil] at hlegal
    cases hlegal

theorem IsTag.length_le {nextTag : Option ℕ} (h : IsTag t nextTag) :
    (tagName t nextTag).length ≤ tagNameSize := by
  cases nextTag with
  | none => exact Nat.le_of_ble_eq_true rfl
  | some i => exact (legal_tagName (h i rfl)).2.1

end Tags

/-! ### Places of the search -/

/-- The tree of a place is the one with its number. -/
def At (trees : List OpenTree) (p : Position) : Prop :=
  ∃ front, trees = front ++ p.tree :: p.rest ∧ front.length = p.index

theorem at_nextTagTree {s : Search} {trees rest : List OpenTree} {i : ℕ} {p : Position}
    (front : List OpenTree) (htrees : trees = front ++ rest) (hi : front.length = i)
    (h : nextTagTree s i rest = some p) : At trees p := by
  induction rest generalizing front i with
  | nil => cases h
  | cons t rest ih =>
    rw [nextTagTree] at h
    split at h
    · cases h
      exact ⟨front, htrees, hi⟩
    · exact ih (front ++ [t]) (by simp [htrees]) (by simp [hi]) h

theorem At.next {trees : List OpenTree} {p q : Position} {s : Search} (hp : At trees p)
    (h : nextTagTree s (p.index + 1) p.rest = some q) : At trees q := by
  obtain ⟨front, htrees, hfront⟩ := hp
  exact at_nextTagTree (front ++ [p.tree]) (by simp [htrees]) (by simp [hfront]) h

theorem findTagFrom_lt {s : Search} {t : OpenTree} {i k : ℕ} (h : findTagFrom s t i = some k) :
    k < t.tables.tags := by
  have hmem := List.mem_of_find?_eq_some h
  rw [List.mem_range'_1] at hmem
  omega

theorem isTag_findInTree {s : Search} {t : OpenTree} {nextTag found : Option ℕ}
    (h : findInTree s t nextTag = some found) : IsTag t found := by
  intro k hk
  subst hk
  cases nextTag with
  | none =>
    rw [findInTree] at h
    split at h
    · cases h
    · obtain ⟨j, hj, hjk⟩ := Option.map_eq_some_iff.1 h
      cases hjk
      exact findTagFrom_lt hj
  | some i =>
    obtain ⟨j, hj, hjk⟩ := Option.map_eq_some_iff.1 h
    cases hjk
    exact findTagFrom_lt hj

theorem findtag_spec {trees : List OpenTree} {s : Search} {p q : Position} (hp : At trees p)
    (h : findtag s p = some q) : At trees q ∧ IsTag q.tree q.nextTag := by
  induction p using findtag.induct s with
  | case1 p nextTag hfound =>
    rw [findtag_eq, hfound] at h
    cases h
    exact ⟨hp, isTag_findInTree hfound⟩
  | case2 p hfound hnone =>
    rw [findtag_eq, hfound] at h
    simp [hnone] at h
  | case3 p hfound p' hnext ih =>
    rw [findtag_eq, hfound] at h
    simp only [hnext, Option.bind_some] at h
    exact ih (hp.next hnext) h

structure AnswerOf (db : Database) (a : Answer) (p : Position) : Prop where
  eq : a = answerAt p
  place : At db.trees p
  tag : IsTag p.tree p.nextTag

theorem answerOf_found {db : Database} {s : Search} {p : Position} {a : Answer} {ctx : Context}
    (hp : At db.trees p)
    (h : ((findtag s p).map fun p => (s, p)).map (fun (s, p) =>
      (answerAt p, s, ({ p with nextTag := nextPlace p.nextTag } : Position))) = some (a, ctx)) :
    At db.trees ctx.2 ∧ ∃ p, AnswerOf db a p := by
  obtain ⟨⟨s, q⟩, hq, hctx⟩ := Option.map_eq_some_iff.1 h
  obtain ⟨q, hfind, heq⟩ := Option.map_eq_some_iff.1 hq
  cases heq
  cases hctx
  obtain ⟨hat, htag⟩ := findtag_spec hp hfind
  exact ⟨hat, q, rfl, hat, htag⟩

theorem returned_spec {db : Database} {a : Answer} {ctx : Context} (h : Returned db a ctx) :
    At db.trees ctx.2 ∧ ∃ p, AnswerOf db a p := by
  induction h with
  | @first wild a ctx h =>
    unfold treeFindTagWild at h
    cases hs : newTagSearch wild with
    | error f => simp [hs, bind, Except.bind] at h
    | ok s =>
      simp only [hs, bind, Except.bind, Except.ok.injEq] at h
      cases hp : nextTagTree s 0 db.trees with
      | none => simp [hp] at h
      | some p =>
        simp only [hp, Option.bind_some] at h
        exact answerOf_found (at_nextTagTree [] (List.nil_append _).symm rfl hp) h
  | @next wild a b ctx ctx' _ h ih =>
    simp only [treeFindTagWild, bind, Except.bind, Except.ok.injEq] at h
    exact answerOf_found ih.1 h

/-! ### Splitting an answer -/

theorem findColons_append (tree tag : List CChar) (h : (58 : CChar) ∉ tree) :
    findColons (tree ++ 58 :: 58 :: tag) = some tree.length := by
  induction tree with
  | nil => simp [findColons]
  | cons c tree ih =>
    simp only [List.mem_cons, not_or] at h
    have hrest := ih h.2
    cases tree with
    | nil => simp [findColons, Ne.symm h.1]
    | cons d tree =>
      simp only [List.cons_append, findColons, Ne.symm h.1, false_and, if_false] at hrest ⊢
      rw [hrest]
      rfl

theorem lengthOf_of_lt {n : ℕ} (h : n < 65536) : lengthOf n = n := by
  unfold lengthOf
  omega

theorem copyChars_append (front part rest : List CChar) :
    copyChars (front ++ part ++ rest) front.length part.length = .ok part := by
  rw [copyChars, if_pos (by simp only [List.length_append]; omega)]
  simp

section Split

variable {tree tag : List CChar} (htree : Named tree) (hshort : tree.length ≤ treeNameSize)
  (htag : Named tag) (hlen : tag.length ≤ tagNameSize) (pat : CString)

include htree hshort htag hlen

theorem newTagSearch_plain (hne : tag ≠ []) (hpat : pat.chars = tree ++ [58, 58] ++ tag) :
    newTagSearch pat = .ok ⟨tree, tag, matchWild top tag⟩ := by
  have htagpos : 0 < tag.length := List.length_pos_iff.2 hne
  simp only [treeNameSize, tagNameSize] at hshort hlen
  have hhead : pat.chars.head? ≠ some 92 := by
    rw [hpat]
    cases tree with
    | nil => exact Option.some_injective _ |>.ne (by decide)
    | cons c tree =>
      simp only [List.cons_append, List.head?_cons, ne_eq, Option.some.injEq]
      exact (isTagChar_ne (htree c List.mem_cons_self)).2.2.2.2.2.2
  have hcolons : findColons pat.chars = some tree.length := by
    rw [hpat, List.append_assoc]
    exact findColons_append tree tag (not_mem_named htree rfl)
  have hstrlen : pat.strlen = tree.length + 2 + tag.length := by
    simp [CString.strlen, hpat]
    omega
  have htreecopy : copyChars pat.chars 0 tree.length = .ok tree := by
    rw [hpat, List.append_assoc]
    exact copyChars_append [] tree ([58, 58] ++ tag)
  have htagcopy : copyChars pat.chars (tree.length + 2) tag.length = .ok tag := by
    have hcopy := copyChars_append (tree ++ [58, 58]) tag []
    rwa [List.append_nil, List.length_append, ← hpat] at hcopy
  have hwhole : lengthOf (pat.strlen - (0 : ℕ)) = tree.length + 2 + tag.length := by
    rw [hstrlen]
    unfold lengthOf
    omega
  have hrest : lengthOf ((tree.length + 2 + tag.length : ℕ) - (tree.length : ℕ) - 2) =
      tag.length := by
    unfold lengthOf
    omega
  simp only [newTagSearch, if_neg hhead, hcolons, List.drop_zero, bind, Except.bind, hwhole,
    lengthOf_of_lt (show tree.length < 65536 by omega), htreecopy, hrest, htagcopy,
    if_neg (Nat.pos_iff_ne_zero.1 htagpos), map_toupper_named htree, map_toupper_named htag]

theorem newTagSearch_backslash (hne : tag ≠ []) (hpat : pat.chars = 92 :: tree ++ [58, 58] ++ tag) :
    ∃ s, newTagSearch pat = .ok s ∧ s.searchTree = tree ++ [58] := by
  obtain ⟨c, cs, rfl⟩ := List.exists_cons_of_ne_nil hne
  simp only [treeNameSize, tagNameSize, List.length_cons] at hshort hlen
  have hhead : pat.chars.head? = some 92 := by simp [hpat]
  have hcolons : findColons pat.chars = some (tree.length + 1) := by
    rw [hpat, List.append_assoc]
    refine findColons_append (92 :: tree) (c :: cs) ?_
    rw [List.mem_cons, not_or]
    exact ⟨by decide, not_mem_named htree rfl⟩
  have hdrop : pat.chars.drop 1 = tree ++ 58 :: 58 :: c :: cs := by simp [hpat]
  have htreecopy : copyChars (pat.chars.drop 1) 0 (tree.length + 1) = .ok (tree ++ [58]) := by
    rw [hdrop]
    have hcopy := copyChars_append [] (tree ++ [58]) (58 :: c :: cs)
    rwa [List.nil_append, List.append_assoc, List.singleton_append, List.length_append] at hcopy
  have htagcopy : copyChars (pat.chars.drop 1) (tree.length + 1 + 2) cs.length = .ok cs := by
    rw [hdrop]
    have hcopy := copyChars_append (tree ++ [58, 58, c]) cs []
    rwa [List.append_nil, List.append_assoc, List.length_append] at hcopy
  have hwhole : lengthOf (pat.strlen - (1 : ℕ)) = tree.length + 3 + cs.length := by
    simp only [CString.strlen, hpat, List.length_append, List.length_cons, List.length_nil]
    unfold lengthOf
    omega
  have hrest : lengthOf ((tree.length + 3 + cs.length : ℕ) - (tree.length + 1 : ℕ) - 2) =
      cs.length := by
    unfold lengthOf
    omega
  have htoupper : (tree ++ [58]).map toupper = tree ++ [58] := by
    rw [List.map_append, map_toupper_named htree]
    rfl
  simp only [newTagSearch, if_pos hhead, hcolons, bind, Except.bind, hwhole,
    lengthOf_of_lt (show tree.length + 1 < 65536 by omega), htreecopy, hrest, htagcopy, htoupper]
  split
  · exact ⟨_, rfl, rfl⟩
  · exact ⟨_, rfl, rfl⟩

end Split

/-! ### Searching again -/

theorem nextTagTree_treenam {s : Search} {t : OpenTree} (hs : s.searchTree = t.treenam)
    (front rest : List OpenTree) (i : ℕ) (hne : ∀ u ∈ front, u.treenam ≠ t.treenam) :
    nextTagTree s i (front ++ t :: rest) = some ⟨i + front.length, t, rest, none⟩ := by
  induction front generalizing i with
  | nil =>
    rw [List.nil_append, nextTagTree, if_pos]
    · simp
    · rw [hs]
      exact (matchWild_named t.named _).2 rfl
  | cons u front ih =>
    have hu : ¬ matchWild u.treenam s.searchTree = true := by
      rw [hs, matchWild_named t.named]
      exact hne u List.mem_cons_self
    rw [List.cons_append, nextTagTree, if_neg hu,
      ih (i + 1) fun v hv => hne v (List.mem_cons_of_mem u hv), List.length_cons]
    simp only [Nat.add_assoc, Nat.add_comm 1]

theorem nextTagTree_colon {s : Search} {tree : List CChar} (htree : Named tree)
    (hs : s.searchTree = tree ++ [58]) (trees : List OpenTree) (i : ℕ) :
    nextTagTree s i trees = none := by
  induction trees generalizing i with
  | nil => rfl
  | cons t trees ih =>
    have hliteral : ∀ c ∈ tree ++ [58], c ≠ 42 ∧ c ≠ 37 := by
      intro c hc
      rcases List.mem_append.1 hc with hc | hc
      · obtain ⟨-, -, -, hany, hstar, -⟩ := isTagChar_ne (htree c hc)
        exact ⟨hstar, hany⟩
      · rw [List.mem_singleton.1 hc]
        decide
    have ht : ¬ matchWild t.treenam s.searchTree = true := by
      rw [hs, matchWild_literal hliteral]
      intro heq
      apply not_mem_named t.named (c := 58) rfl
      rw [heq]
      simp
    rw [nextTagTree, if_neg ht, ih]

theorem At.treenam_ne {db : Database} {p : Position} (h : At db.trees p) :
    ∃ front, db.trees = front ++ p.tree :: p.rest ∧ front.length = p.index ∧
      ∀ u ∈ front, u.treenam ≠ p.tree.treenam := by
  obtain ⟨front, htrees, hfront⟩ := h
  refine ⟨front, htrees, hfront, fun u hu heq => ?_⟩
  have hnodup := db.nodup
  rw [htrees, List.map_append, List.nodup_append] at hnodup
  exact hnodup.2.2 _ (List.mem_map_of_mem hu) _ (by simp) heq

def placeOf (p : Position) : Position :=
  { p with nextTag := if tagName p.tree p.nextTag = top then none else p.nextTag }

/-- What an answer without its backslash is split into. -/
def searchOf (p : Position) : Search :=
  ⟨p.tree.treenam, tagName p.tree p.nextTag, matchWild top (tagName p.tree p.nextTag)⟩

theorem findInTree_searchOf {p : Position} (h : IsTag p.tree p.nextTag) :
    findInTree (searchOf p) p.tree none = some (placeOf p).nextTag := by
  have htopmatch : (searchOf p).topMatch = true ↔ top = tagName p.tree p.nextTag :=
    matchWild_named h.named top
  rw [findInTree, placeOf]
  by_cases htop : tagName p.tree p.nextTag = top
  · rw [if_pos (htopmatch.2 htop.symm), if_pos htop]
  rw [if_neg fun hmatch => htop (htopmatch.1 hmatch).symm, if_neg htop]
  cases hnext : p.nextTag with
  | none =>
    rw [hnext] at htop
    exact absurd rfl htop
  | some k =>
    have hk := h k hnext
    have hfind : findTagFrom (searchOf p) p.tree 0 = some k := by
      rw [findTagFrom, List.find?_range'_eq_some]
      refine ⟨(matchWild_named h.named _).2 ?_, List.mem_range'_1.2 ⟨Nat.zero_le k, by omega⟩, ?_⟩
      · rw [hnext, tagName]
      · intro j _ hjk
        rw [Bool.not_eq_true', Bool.eq_false_iff, ne_eq]
        intro hmatch
        have heq := (matchWild_named h.named _).1 hmatch
        rw [hnext] at heq
        exact Nat.ne_of_lt hjk (tagName_injective (Nat.lt_trans hjk hk) hk heq)
    rw [hfind, Option.map_some]

theorem findtag_searchOf {db : Database} {p : Position} (hplace : At db.trees p)
    (htag : IsTag p.tree p.nextTag) :
    (nextTagTree (searchOf p) 0 db.trees).bind (findtag (searchOf p)) = some (placeOf p) := by
  obtain ⟨front, htrees, hfront, hne⟩ := hplace.treenam_ne
  rw [htrees, nextTagTree_treenam rfl front p.rest 0 hne, Option.bind_some, findtag_eq]
  simp only [findInTree_searchOf htag, Nat.zero_add, hfront]
  rfl

def again (a : Answer) (keep : Bool) : List CChar := if keep then a.text else a.text.tail

def FoundAgain (db : Database) (a : Answer) (keep : Bool) : Prop :=
  ∃ pat : CString, pat.chars = again a keep ∧ firstAnswer db pat = .ok (some a)

def tagOf (a : Answer) : List CChar := a.text.rtakeWhile fun c => c ≠ 58

section Again

variable {db : Database} {a : Answer} {p : Position} (h : AnswerOf db a p)

include h

theorem text_answer : a.text = 92 :: p.tree.treenam ++ [58, 58] ++ tagName p.tree p.nextTag := by
  rw [h.eq]
  rfl

theorem tagOf_answer : tagOf a = tagName p.tree p.nextTag := by
  have htag : ∀ c ∈ (tagName p.tree p.nextTag).reverse, (decide (c ≠ 58)) = true := by
    intro c hc
    simpa using (isTagChar_ne (h.tag.named c (List.mem_reverse.1 hc))).2.2.2.2.2.1
  rw [tagOf, text_answer h, List.rtakeWhile, List.reverse_append,
    List.takeWhile_append_of_pos htag]
  simp

theorem noNul_answer : ∀ c ∈ a.text, c ≠ 0 := by
  intro c hc
  rw [text_answer h, List.mem_append, List.mem_append, List.mem_cons] at hc
  rcases hc with ((rfl | hc) | hc) | hc
  · decide
  · exact (isTagChar_ne (p.tree.named c hc)).1
  · simp only [List.mem_cons, List.not_mem_nil, or_false, or_self] at hc
    rw [hc]
    decide
  · exact (isTagChar_ne (h.tag.named c hc)).1

theorem firstAnswer_plain {pat : CString} (hpat : pat.chars = a.text.tail) :
    firstAnswer db pat = .ok (some (answerAt (placeOf p))) := by
  have hsplit : newTagSearch pat = .ok (searchOf p) :=
    newTagSearch_plain p.tree.named p.tree.short h.tag.named h.tag.length_le pat h.tag.ne_nil
      (by rw [hpat, text_answer h]; rfl)
  obtain ⟨q, hq, hplace⟩ := Option.bind_eq_some_iff.1 (findtag_searchOf h.place h.tag)
  simp only [firstAnswer, treeFindTagWild, hsplit, bind, Except.bind, hq, Option.bind_some,
    hplace, Option.map_some]

theorem firstAnswer_backslash {pat : CString} (hpat : pat.chars = a.text) :
    firstAnswer db pat = .ok none := by
  obtain ⟨s, hs, htree⟩ := newTagSearch_backslash p.tree.named p.tree.short h.tag.named
    h.tag.length_le pat h.tag.ne_nil (by rw [hpat, text_answer h])
  simp only [firstAnswer, treeFindTagWild, hs, bind, Except.bind,
    nextTagTree_colon p.tree.named htree, Option.bind_none, Option.map_none]

theorem answerAt_placeOf : answerAt (placeOf p) = a ↔ (tagOf a = top → a.nid.node = 0) := by
  rw [tagOf_answer h, h.eq, placeOf]
  by_cases htop : tagName p.tree p.nextTag = top
  · have hname : tagName p.tree none = tagName p.tree p.nextTag := htop.symm
    have hnode : tagNode p.tree none % maxNodes = 0 := Nat.zero_mod _
    rw [if_pos htop]
    simp only [answerAt, hname, nodeToNid, hnode, Answer.mk.injEq, Nid.mk.injEq, true_and, htop,
      forall_const]
    exact eq_comm
  · simp [htop]

end Again

/-- An answer is found again without its backslash, unless a tag that has the reserved name is
at another node than the top node. -/
theorem answer_found_again_iff {db : Database} {a : Answer} {ctx : Context}
    (h : Returned db a ctx) (keep : Bool) :
    FoundAgain db a keep ↔ keep = false ∧ (tagOf a = top → a.nid.node = 0) := by
  obtain ⟨-, p, hp⟩ := returned_spec h
  cases keep with
  | true =>
    simp only [Bool.true_eq_false, false_and, iff_false]
    rintro ⟨pat, hpat, hfirst⟩
    rw [firstAnswer_backslash hp hpat] at hfirst
    cases hfirst
  | false =>
    rw [← answerAt_placeOf hp]
    simp only [true_and]
    constructor
    · rintro ⟨pat, hpat, hfirst⟩
      rw [firstAnswer_plain hp hpat] at hfirst
      simpa using hfirst
    · intro hsame
      refine ⟨⟨a.text.tail, fun c hc => noNul_answer hp c (List.mem_of_mem_tail hc)⟩, rfl, ?_⟩
      rw [firstAnswer_plain hp rfl, hsame]

section Alone

theorem named_alone : ∀ c ∈ ([84] : List CChar), isTagChar c = true := List.all_eq_true.1 rfl

theorem short_alone : ([84] : List CChar).length ≤ treeNameSize := Nat.le_of_ble_eq_true rfl

def aloneTree : OpenTree where
  treenam := [84]
  tables := ⟨false, 0, 1, fun _ => 0, 0, fun _ => 0, 0, 0, fun _ => ⟨[], 0, 0⟩, 0, 0⟩
  named := named_alone
  short := short_alone
  tagged i hi := absurd hi (Nat.not_lt_zero i)
  sorted _ j _ hj := absurd hj (Nat.not_lt_zero j)

def alone : Database := ⟨[aloneTree], List.nodup_singleton _⟩

def topAnswer : Answer := ⟨[92, 84, 58, 58, 84, 79, 80], ⟨0, 0⟩⟩

def anyPattern : CString := ⟨star, by simp [TagSearch.star]⟩

theorem returned_topAnswer :
    Returned alone topAnswer (⟨star, star, true⟩, ⟨0, aloneTree, [], some 0⟩) := by
  have hsplit : newTagSearch anyPattern = .ok ⟨star, star, true⟩ := rfl
  have hnext : nextTagTree ⟨star, star, true⟩ 0 alone.trees = some ⟨0, aloneTree, [], none⟩ := rfl
  have hfind : findtag ⟨star, star, true⟩ ⟨0, aloneTree, [], none⟩ =
      some ⟨0, aloneTree, [], none⟩ := by
    rw [findtag_eq]
    rfl
  have hcall : treeFindTagWild alone anyPattern none = .ok (some (topAnswer,
      (⟨star, star, true⟩, ⟨0, aloneTree, [], some 0⟩))) := by
    simp only [treeFindTagWild, hsplit, bind, Except.bind, hnext, Option.bind_some, hfind,
      Option.map_some]
    rfl
  exact .first hcall

theorem topAnswer_found_again : FoundAgain alone topAnswer false :=
  (answer_found_again_iff returned_topAnswer false).2 ⟨rfl, fun _ => rfl⟩

theorem topAnswer_not_found_again :
    ¬ ∀ db a ctx keep, Returned db a ctx → FoundAgain db a keep := by
  intro hall
  obtain ⟨-, p, hp⟩ := returned_spec returned_topAnswer
  obtain ⟨pat, hpat, hfirst⟩ := hall alone topAnswer _ true returned_topAnswer
  rw [firstAnswer_backslash hp hpat] at hfirst
  cases hfirst

end Alone

end MdsPlus.TagAnswers
