import OcScript.Proofs.Scan.Respelled

/-
  This file proves when the order of its entries matters to
  a keyword table.

  A table is made from a map by going through its entries,
  in an order that the map does not settle.  An entry that
  comes later takes the spelling from the one before.  So
  the order matters just if two keywords want the same
  spelling, and then only to which of them gets it: the
  spellings in the table are the same in every order.

  Key definitions include:
    * `OcScript.StringMap.IsOrder`
    * `OcScript.StringMap.Distinct`

  Key theorems include:
    * `OcScript.KeywordTable.mem_ofSpellings_iff`
    * `OcScript.KeywordTable.getElem?_ofSpellings_concat`
    * `OcScript.KeywordTable.order_matters_iff_clash`
-/

------------------------------------------------------------
-- Entries in Some Order
------------------------------------------------------------

namespace OcScript

namespace StringMap

/- An order in which the entries of a map can be met. -/
def IsOrder
    (map : StringMap)
    (entries : List (String × String)) :
    Prop :=
  entries.Perm map.toList

/- No two keywords are given the same spelling. -/
def Distinct
    (map : StringMap) :
    Prop :=
  ∀ (j k : Keyword) (spelling : String),
    map[j.name]? = some spelling →
    map[k.name]? = some spelling →
    j = k

variable {map : StringMap}
variable {entries : List (String × String)}

/- In every order there are the entries of the map. -/
theorem IsOrder.mem_iff
    (hOrder : map.IsOrder entries)
    {name spelling : String} :
    (name, spelling) ∈ entries ↔
      map[name]? = some spelling := by
  rw [List.Perm.mem_iff hOrder]
  exact Std.ExtTreeMap.mem_toList_iff_getElem?_eq_some

/- Any entry can be the last one. -/
theorem exists_isOrder_concat
    {name spelling : String}
    (hEntry : map[name]? = some spelling) :
    ∃ front, map.IsOrder (front ++ [(name, spelling)]) := by
  have hMem : (name, spelling) ∈ map.toList :=
    Std.ExtTreeMap.mem_toList_iff_getElem?_eq_some.mpr
      hEntry
  refine ⟨map.toList.erase (name, spelling), ?_⟩
  exact
    (List.perm_append_singleton _ _).trans
      (List.perm_cons_erase hMem).symm

end StringMap

end OcScript

------------------------------------------------------------
-- Tables of Entries
------------------------------------------------------------

namespace OcScript

namespace KeywordTable

/- A table has the spellings of the keywords in its list. -/
theorem mem_ofSpellings_iff
    {entries : List (String × String)}
    {spelling : String} :
    spelling ∈ ofSpellings entries ↔
      ∃ k : Keyword, (k.name, spelling) ∈ entries := by
  refine ⟨?_, ?_⟩
  · intro hMem
    rw [Std.ExtTreeMap.mem_iff_isSome_getElem?,
      Option.isSome_iff_exists] at hMem
    rcases hMem with ⟨k, hFound⟩
    exact ⟨k, name_mem_of_getElem? hFound⟩
  · intro hEntry
    exact mem_foldl_of_mem (.inr hEntry)

/- The last entry of a list is in force. -/
theorem getElem?_ofSpellings_concat
    (front : List (String × String))
    (k : Keyword)
    (spelling : String) :
    (ofSpellings (front ++ [(k.name, spelling)]))[
        spelling]? =
      some k := by
  have hName :=
    Keyword.ofName?_eq_some_iff.mpr (rfl : k.name = _)
  simp [ofSpellings, addSpelling, hName]

variable {map : StringMap}
variable {entries : List (String × String)}

/- Without clashes, a table finds what the map says. -/
theorem getElem?_ofSpellings_iff
    (hDistinct : map.Distinct)
    (hOrder : map.IsOrder entries)
    {spelling : String}
    {k : Keyword} :
    (ofSpellings entries)[spelling]? = some k ↔
      map[k.name]? = some spelling := by
  refine ⟨?_, ?_⟩
  · intro hFound
    exact hOrder.mem_iff.mp (name_mem_of_getElem? hFound)
  · intro hEntry
    have hMem : spelling ∈ ofSpellings entries :=
      mem_ofSpellings_iff.mpr ⟨k, hOrder.mem_iff.mpr hEntry⟩
    rw [Std.ExtTreeMap.mem_iff_isSome_getElem?,
      Option.isSome_iff_exists] at hMem
    rcases hMem with ⟨j, hFound⟩
    have hOther :=
      hOrder.mem_iff.mp (name_mem_of_getElem? hFound)
    rw [hFound, hDistinct j k spelling hOther hEntry]

/- Without clashes, all orders give the same table. -/
theorem ofSpellings_eq_of_distinct
    (hDistinct : map.Distinct)
    {others : List (String × String)}
    (hOrder : map.IsOrder entries)
    (hOther : map.IsOrder others) :
    ofSpellings entries = ofSpellings others := by
  apply Std.ExtTreeMap.ext_getElem?
  intro spelling
  apply Option.ext
  intro k
  rw [getElem?_ofSpellings_iff hDistinct hOrder,
    getElem?_ofSpellings_iff hDistinct hOther]

/-
  If all orders give the same table, there are no clashes:
  each of two keywords with the same spelling could come
  last, and would then be the one that is found.
-/
theorem distinct_of_ofSpellings_eq
    (hSame :
      ∀ entries others,
        map.IsOrder entries →
        map.IsOrder others →
        ofSpellings entries = ofSpellings others) :
    map.Distinct := by
  intro j k spelling hFirst hSecond
  rcases StringMap.exists_isOrder_concat hFirst with
    ⟨front, hOrder⟩
  rcases StringMap.exists_isOrder_concat hSecond with
    ⟨back, hOther⟩
  have hFound := getElem?_ofSpellings_concat front j spelling
  rw [hSame _ _ hOrder hOther,
    getElem?_ofSpellings_concat] at hFound
  exact (Option.some.inj hFound).symm

/-
  The order in which a map is gone through matters to the
  table just if two keywords have the same spelling in it.
  If not, the table finds a keyword by what the map gives to
  its name, whatever the map gives to other names.  In any
  case, the spellings in the table are those that the map
  gives to names of keywords.
-/
theorem order_matters_iff_clash
    (map : StringMap) :
    ((∀ entries others,
        map.IsOrder entries →
        map.IsOrder others →
        ofSpellings entries = ofSpellings others) ↔
      map.Distinct) ∧
    (map.Distinct →
      ∀ entries,
        map.IsOrder entries →
        ∀ (spelling : String) (k : Keyword),
          (ofSpellings entries)[spelling]? = some k ↔
            map[k.name]? = some spelling) ∧
    ∀ entries,
      map.IsOrder entries →
      ∀ spelling : String,
        spelling ∈ ofSpellings entries ↔
          ∃ k : Keyword, map[k.name]? = some spelling := by
  refine ⟨⟨distinct_of_ofSpellings_eq, ?_⟩, ?_, ?_⟩
  · intro hDistinct entries others hOrder hOther
    exact ofSpellings_eq_of_distinct hDistinct hOrder hOther
  · intro hDistinct entries hOrder spelling k
    exact getElem?_ofSpellings_iff hDistinct hOrder
  · intro entries hOrder spelling
    rw [mem_ofSpellings_iff]
    exact exists_congr fun k => hOrder.mem_iff

/-
  A map in which two keywords have the same spelling, and a
  name of no keyword has one, too.
-/
def sharedSpelling : StringMap :=
  .ofMembers [("if", "x"), ("print", "x"), ("lambda", "y")]

/- Its table depends on the order, but not its spellings. -/
theorem order_matters_iff_clash_sharedSpelling :
    (¬ ∀ entries others,
      sharedSpelling.IsOrder entries →
      sharedSpelling.IsOrder others →
      ofSpellings entries = ofSpellings others) ∧
    ∀ entries,
      sharedSpelling.IsOrder entries →
      "x" ∈ ofSpellings entries ∧
        "y" ∉ ofSpellings entries := by
  have hIf :
      sharedSpelling[Keyword.ifWord.name]? = some "x" := by
    decide +kernel
  have hPrint :
      sharedSpelling[Keyword.printWord.name]? =
        some "x" := by
    decide +kernel
  have hNone :
      ∀ k ∈ Keyword.all,
        sharedSpelling[k.name]? ≠ some "y" := by
    decide +kernel
  rcases order_matters_iff_clash sharedSpelling with
    ⟨hSame, -, hSpellings⟩
  refine ⟨?_, ?_⟩
  · rw [hSame]
    intro hDistinct
    cases hDistinct _ _ _ hIf hPrint
  · intro entries hOrder
    rw [hSpellings entries hOrder, hSpellings entries hOrder]
    refine ⟨⟨_, hIf⟩, ?_⟩
    rintro ⟨k, hEntry⟩
    have hAll : k ∈ Keyword.all := by
      cases k <;> decide
    exact hNone k hAll hEntry

end KeywordTable

end OcScript
