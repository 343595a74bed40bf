import GrammarRepair.Proofs.Grammar.Kept
import GrammarRepair.Proofs.Grammar.Tables
import GrammarRepair.Proofs.Grammar.Tokens
import GrammarRepair.Proofs.Intersection.Names
import GrammarRepair.Proofs.Sorted

/-!
Numbers for names that are no tokens of the grammar. They share the numbers of one width with the
tokens, from the last of these on, so what decides is how many different foreign names there are.
The foreign names met so far only grow at their end, so a name keeps the number that it was given.
Main statement: an input is refused exactly if its foreign names do not fit behind the tokens, and
otherwise its numbers can be read back as its names.
-/

namespace GrammarRepair

namespace Grammar

variable {g : Grammar} {w : Width} {name : String} {names foreign foreign' : List String}

def meet (g : Grammar) (foreign : List String) (name : String) : List String :=
  if name ∈ g.tokenList ∨ name ∈ foreign then foreign else foreign ++ [name]

def numberOf (g : Grammar) (foreign : List String) (name : String) : Nat :=
  if name ∈ g.tokenList then g.tokenList.idxOf name else g.tokenCount + foreign.idxOf name

def nameOf? (g : Grammar) (foreign : List String) (token : Nat) : Option String :=
  if token < g.tokenCount then g.tokenNames[token]? else foreign[token - g.tokenCount]?

theorem prefix_meet (g : Grammar) (foreign : List String) (name : String) :
    foreign <+: g.meet foreign name := by
  unfold meet
  split
  · exact List.prefix_refl foreign
  · exact List.prefix_append foreign [name]

theorem prefix_foldl_meet (g : Grammar) (names foreign : List String) :
    foreign <+: names.foldl g.meet foreign := by
  induction names generalizing foreign with
  | nil => exact List.prefix_refl foreign
  | cons name names ih => exact (prefix_meet g foreign name).trans (ih _)

theorem mem_meet {n : String} :
    n ∈ g.meet foreign name ↔ n ∈ foreign ∨ n = name ∧ name ∉ g.tokenList := by
  unfold meet
  split
  · next h => grind
  · next h => grind

/-- Later foreign names do not change the number of one that was met. -/
theorem numberOf_of_later (h : foreign <+: foreign') (hname : name ∈ g.tokenList ∨ name ∈ foreign) :
    g.numberOf foreign' name = g.numberOf foreign name := by
  unfold numberOf
  split
  · rfl
  · next hnot =>
    obtain ⟨more, rfl⟩ := h
    rw [List.idxOf_append_of_mem (hname.resolve_left hnot)]

theorem mem_or_mem_meet (g : Grammar) (foreign : List String) (name : String) :
    name ∈ g.tokenList ∨ name ∈ g.meet foreign name := by
  rw [mem_meet]
  tauto

/-- One name: its number is refused exactly if the foreign names do not fit any more. -/
theorem numberName_eq (h : g.tokenCount + foreign.length ≤ w.maxIndex + 1) (name : String) :
    g.numberName w foreign name =
      if g.tokenCount + (g.meet foreign name).length ≤ w.maxIndex + 1 then
        .ok (g.numberOf (g.meet foreign name) name, g.meet foreign name)
      else .error (.overfull .input) := by
  by_cases htoken : name ∈ g.tokenList
  · have hmeet : g.meet foreign name = foreign := if_pos (.inl htoken)
    rw [numberName_of_mem htoken, hmeet, if_pos h, numberOf, if_pos htoken]
  · have hmeet : (if name ∈ foreign then foreign else foreign ++ [name]) = g.meet foreign name := by
      simp only [meet, htoken, false_or]
    rw [numberName, tokenIndex?_of_not_mem htoken]
    simp only
    rw [hmeet, numberOf, if_neg htoken]
    refine if_congr ?_ rfl rfl
    by_cases hmet : name ∈ foreign
    · have hlt := List.idxOf_lt_length_iff.2 hmet
      rw [meet, if_pos (.inr hmet)]
      omega
    · rw [meet, if_neg (not_or.2 ⟨htoken, hmet⟩), List.idxOf_append_of_notMem hmet,
        List.idxOf_cons_self, List.length_append, List.length_singleton]
      omega

theorem numberNames_eq (h : g.tokenCount + foreign.length ≤ w.maxIndex + 1) :
    g.numberNames w foreign names =
      if g.tokenCount + (names.foldl g.meet foreign).length ≤ w.maxIndex + 1 then
        .ok (names.map (g.numberOf (names.foldl g.meet foreign)), names.foldl g.meet foreign)
      else .error (.overfull .input) := by
  induction names generalizing foreign with
  | nil =>
    rw [numberNames, List.foldl_nil, if_pos h]
    rfl
  | cons name names ih =>
    have hlater := prefix_foldl_meet g names (g.meet foreign name)
    rw [numberNames, numberName_eq h name, List.foldl_cons]
    by_cases hfits : g.tokenCount + (g.meet foreign name).length ≤ w.maxIndex + 1
    · rw [if_pos hfits]
      simp only
      rw [ih hfits, List.map_cons, numberOf_of_later hlater (mem_or_mem_meet g foreign name)]
      by_cases hall : g.tokenCount + (names.foldl g.meet (g.meet foreign name)).length ≤
          w.maxIndex + 1
      · rw [if_pos hall, if_pos hall]
      · rw [if_neg hall, if_neg hall]
    · have hlength := hlater.length_le
      rw [if_neg hfits, if_neg (by omega)]

/-- The foreign names of an input: each once, in order of first appearance. -/
structure ListsForeign (g : Grammar) (names foreign : List String) : Prop where
  nodup : foreign.Nodup
  mem_iff : ∀ name, name ∈ foreign ↔ name ∈ names ∧ name ∉ g.tokenList
  ascending : foreign.Pairwise fun a b => names.idxOf a < names.idxOf b

theorem ListsForeign.meet (h : g.ListsForeign names foreign) (name : String) :
    g.ListsForeign (names ++ [name]) (g.meet foreign name) := by
  have hbefore : ∀ a ∈ foreign, (names ++ [name]).idxOf a = names.idxOf a := fun a ha =>
    List.idxOf_append_of_mem ((h.mem_iff a).1 ha).1
  have hascending : foreign.Pairwise fun a b =>
      (names ++ [name]).idxOf a < (names ++ [name]).idxOf b := by
    refine h.ascending.imp_of_mem fun ha hb hlt => ?_
    rwa [hbefore _ ha, hbefore _ hb]
  have hmem : ∀ n, n ∈ g.meet foreign name ↔ n ∈ names ++ [name] ∧ n ∉ g.tokenList := by
    intro n
    rw [mem_meet, h.mem_iff, List.mem_append, List.mem_singleton]
    constructor
    · rintro (⟨hn, hforeign⟩ | ⟨rfl, hforeign⟩)
      · exact ⟨.inl hn, hforeign⟩
      · exact ⟨.inr rfl, hforeign⟩
    · rintro ⟨hn | rfl, hforeign⟩
      · exact .inl ⟨hn, hforeign⟩
      · exact .inr ⟨rfl, hforeign⟩
  by_cases hknown : name ∈ g.tokenList ∨ name ∈ foreign
  · have hmeet : g.meet foreign name = foreign := if_pos hknown
    rw [hmeet] at hmem ⊢
    exact ⟨h.nodup, hmem, hascending⟩
  · have hmeet : g.meet foreign name = foreign ++ [name] := if_neg hknown
    obtain ⟨htoken, hnew⟩ := not_or.1 hknown
    have hnames : name ∉ names := fun hname => hnew ((h.mem_iff name).2 ⟨hname, htoken⟩)
    rw [hmeet] at hmem ⊢
    refine ⟨?_, hmem, List.pairwise_append.2 ⟨hascending, List.pairwise_singleton _ name, ?_⟩⟩
    · rw [← List.concat_eq_append]
      exact h.nodup.concat hnew
    · intro a ha b hb
      obtain rfl := List.mem_singleton.1 hb
      rw [hbefore a ha, List.idxOf_append_of_notMem hnames, List.idxOf_cons_self]
      exact List.idxOf_lt_length_iff.2 ((h.mem_iff a).1 ha).1

theorem listsForeign_foldl (g : Grammar) (names : List String) :
    g.ListsForeign names (names.foldl g.meet []) := by
  induction names using List.reverseRecOn with
  | nil => exact ⟨.nil, by simp, .nil⟩
  | append_singleton names name ih =>
    rw [List.foldl_append, List.foldl_cons, List.foldl_nil]
    exact ih.meet name

theorem ListsForeign.length_eq (h : g.ListsForeign names foreign) :
    {name | name ∈ names ∧ name ∉ g.tokenList}.ncard = foreign.length :=
  ncard_eq_length h.nodup h.mem_iff

theorem nameOf?_numberOf (h : name ∈ g.tokenList ∨ name ∈ foreign) :
    g.nameOf? foreign (g.numberOf foreign name) = some name := by
  unfold numberOf
  split
  · next htoken =>
    have hlt : g.tokenList.idxOf name < g.tokenCount := List.idxOf_lt_length_iff.2 htoken
    rw [nameOf?, if_pos hlt, ← Array.getElem?_toList]
    exact List.getElem?_idxOf htoken
  · next htoken =>
    rw [nameOf?, if_neg (Nat.not_lt.2 (Nat.le_add_right _ _)), Nat.add_sub_cancel_left]
    exact List.getElem?_idxOf (h.resolve_left htoken)

theorem numberOf_lt (h : name ∈ g.tokenList ∨ name ∈ foreign) :
    g.numberOf foreign name < g.tokenCount + foreign.length := by
  unfold numberOf
  split
  · next htoken =>
    have hlt : g.tokenList.idxOf name < g.tokenCount := List.idxOf_lt_length_iff.2 htoken
    omega
  · next htoken =>
    have hlt := List.idxOf_lt_length_iff.2 (h.resolve_left htoken)
    omega

/-- Numbers behind those of the tokens belong to no rule. -/
theorem rulesOf_of_tokenCount_le {t : Nat} (h : g.tokenCount ≤ t) : g.rulesOf t = [] := by
  refine List.eq_nil_iff_forall_not_mem.2 fun a ha => ?_
  have hlt : t < g.tokenCount := (g.inRange _ (mem_rulesOf.1 ha)).2
  omega

/-- What numbers of an input's names are good for. -/
structure Numbers (g : Grammar) (w : Width) (names : List String) (tokens : List Nat)
    (foreign : List String) : Prop where
  reads_back : tokens.map (g.nameOf? foreign) = names.map some
  same_iff : ∀ i < names.length, ∀ j < names.length,
    tokens[i]? = tokens[j]? ↔ names[i]? = names[j]?
  listsForeign : g.ListsForeign names foreign
  rulesOf_eq_nil : ∀ t, g.tokenCount ≤ t → g.rulesOf t = []
  le_maxIndex : ∀ t ∈ tokens, t ≤ w.maxIndex

theorem ListsForeign.numbers (h : g.ListsForeign names foreign)
    (hfits : g.tokenCount + foreign.length ≤ w.maxIndex + 1) :
    g.Numbers w names (names.map (g.numberOf foreign)) foreign := by
  have hknown : ∀ name ∈ names, name ∈ g.tokenList ∨ name ∈ foreign := by
    intro name hname
    rw [h.mem_iff]
    tauto
  have hback : ∀ name ∈ names, g.nameOf? foreign (g.numberOf foreign name) = some name :=
    fun name hname => nameOf?_numberOf (hknown name hname)
  refine ⟨?_, fun i hi j hj => ?_, h, fun t => rulesOf_of_tokenCount_le, fun t ht => ?_⟩
  · rw [List.map_map]
    exact List.map_congr_left hback
  · rw [List.getElem?_map, List.getElem?_map, List.getElem?_eq_getElem hi,
      List.getElem?_eq_getElem hj, Option.map_some, Option.map_some, Option.some_inj,
      Option.some_inj]
    refine ⟨fun heq => ?_, fun heq => by rw [heq]⟩
    have hsame := congrArg (g.nameOf? foreign) heq
    rwa [hback _ (List.getElem_mem hi), hback _ (List.getElem_mem hj), Option.some_inj] at hsame
  · obtain ⟨name, hname, rfl⟩ := List.mem_map.1 ht
    have hlt := numberOf_lt (hknown name hname)
    omega

/-- The tokens of a grammar and the foreign names of an input share the numbers of one width. If
they are too many, then the input is refused. Otherwise its numbers can be read back as its names,
and what is foreign is derived by no rule. -/
theorem tokenIndices_of_fits (h : g.Fits w) (names : List String) :
    (2 ^ w.bits < g.tokenCount + {name | name ∈ names ∧ name ∉ g.tokenList}.ncard →
      g.tokenIndices w names = .error (.overfull .input)) ∧
    (g.tokenCount + {name | name ∈ names ∧ name ∉ g.tokenList}.ncard ≤ 2 ^ w.bits →
      ∃ tokens foreign, g.tokenIndices w names = .ok (tokens, foreign) ∧
        g.Numbers w names tokens foreign) := by
  have hpow : 2 ^ w.bits = w.maxIndex + 1 := by
    have hpos := Nat.two_pow_pos w.bits
    rw [w.maxIndex_eq, Nat.one_shiftLeft]
    omega
  have hforeign := listsForeign_foldl g names
  have hnone : g.tokenCount + ([] : List String).length ≤ w.maxIndex + 1 :=
    Nat.le_succ_of_le h.tokens_le
  rw [hforeign.length_eq, hpow, tokenIndices, numberNames_eq hnone]
  refine ⟨fun hmany => if_neg (Nat.not_le.2 hmany), fun hfits => ?_⟩
  exact ⟨_, _, if_pos hfits, hforeign.numbers hfits⟩

theorem numberedText_inj : Function.Injective fun i : Nat => "t" ++ toString i := by
  intro i j h
  have hlist := congrArg String.toList h
  simp only [String.toList_append, List.append_cancel_left_eq] at hlist
  exact toString_inj hlist

/-- A grammar that leaves one of the narrowest numbers. -/
def narrow : Grammar :=
  assemble ["A"] 0 ((List.range 255).map fun i => "t" ++ toString i) [⟨0, .token 0⟩] (by decide)
    (List.nodup_range.map numberedText_inj) (by decide) (by
      intro p hp
      obtain rfl := List.mem_singleton.1 hp
      simp [Production.InRange])

/-- The one number that is left goes to one foreign name, however often it is met, not to two. -/
theorem tokenIndices_of_fits_narrow :
    narrow.Fits .w8 ∧
    narrow.tokenIndices .w8 ["yy", "zz", "t1"] = .error (.overfull .input) ∧
    ∃ tokens foreign, narrow.tokenIndices .w8 ["yy", "t1", "yy"] = .ok (tokens, foreign) ∧
      narrow.Numbers .w8 ["yy", "t1", "yy"] tokens foreign := by
  have hfits : narrow.Fits .w8 := ⟨by decide, by decide +kernel, by decide⟩
  have htwo := (listsForeign_foldl narrow ["yy", "zz", "t1"]).length_eq
  have hone := (listsForeign_foldl narrow ["yy", "t1", "yy"]).length_eq
  refine ⟨hfits, (tokenIndices_of_fits hfits _).1 ?_, (tokenIndices_of_fits hfits _).2 ?_⟩
  · rw [htwo]
    decide +kernel
  · rw [hone]
    decide +kernel

end Grammar

end GrammarRepair
