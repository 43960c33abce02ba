import OsCourse.PageTable.Memory

/-! # The two page-table walks of `pt.c`

`page_table_update` and `page_table_query` walk five levels of nine bits each.
Both loops are translated with their own test for a missing level: update asks
whether the entry is zero, query whether its valid bit is clear. Each walk also
returns the accesses it makes: the pointer `phys_to_virt` returned and the
index applied to it.
-/

namespace OsCourse.PageTable

def NO_MAPPING : Word := ~~~0#64

def nineBitsMsb : Word := ~~~((1#64 <<< 36) - 1#64) &&& ((1#64 <<< 45) - 1#64)

def twelveBitsLsb : Word := ~~~((1#64 <<< 12) - 1#64)

/-- `curr_symbol`: bits 36 to 44 of `temp_vpn`. -/
def currSymbol (temp_vpn : Word) : Word := (temp_vpn &&& nineBitsMsb) >>> 36

/-- One access `pt_node[curr_symbol]`. -/
structure Access where
  ptNode : VAddr
  currSymbol : Word
  deriving DecidableEq, Repr

/-- The variables of a walk between two turns of its loop. -/
structure Walk where
  mem : PhysMem
  ptNode : VAddr
  tempVpn : Word
  accesses : List Access

def Walk.start (m : PhysMem) (pt vpn : Word) : Walk :=
  ⟨m, physToVirt m (pt <<< 12), vpn, []⟩

/-- The assignments at the end of a loop body: follow `page_add` and shift the next symbol up. -/
def Walk.descend (w : Walk) (m : PhysMem) (page_add : Word) : Walk :=
  ⟨m, physToVirt m (page_add &&& twelveBitsLsb), w.tempVpn <<< 9,
    w.accesses ++ [⟨w.ptNode, currSymbol w.tempVpn⟩]⟩

/-- One turn of the loop of `page_table_update`. -/
def updateLayer (w : Walk) : Except Stop Walk := do
  let entry ← load w.mem w.ptNode (currSymbol w.tempVpn)
  if entry = 0#64 then
    let (m, new_page) ← allocPageFrame w.mem
    let new_page_add := (new_page <<< 12) + 1#64
    let m ← store m w.ptNode (currSymbol w.tempVpn) new_page_add
    return w.descend m new_page_add
  else
    return w.descend w.mem entry

/-- `for (layer = 1; layer < 5; layer++)`, with the number of turns still to come. -/
def updateLayers : ℕ → Walk → Except Stop Walk
  | 0, w => .ok w
  | layers + 1, w => do updateLayers layers (← updateLayer w)

/-- The word `page_table_update` stores in the leaf entry that holds `old`. -/
def finalPte (old ppn : Word) : Word :=
  if ppn = NO_MAPPING then (old >>> 1) <<< 1 else (ppn <<< 12) + 1#64

/-- `page_table_update`, with the walk it made. -/
def pageTableUpdateWalk (m : PhysMem) (pt vpn ppn : Word) : Except Stop Walk := do
  let w ← updateLayers 4 (.start m pt vpn)
  let old ← load w.mem w.ptNode (currSymbol w.tempVpn)
  let m ← store w.mem w.ptNode (currSymbol w.tempVpn) (finalPte old ppn)
  return ⟨m, w.ptNode, w.tempVpn, w.accesses ++ [⟨w.ptNode, currSymbol w.tempVpn⟩]⟩

def pageTableUpdate (m : PhysMem) (pt vpn ppn : Word) : Except Stop PhysMem :=
  (pageTableUpdateWalk m pt vpn ppn).map Walk.mem

/-- The loop of `page_table_query`; `none` is its early `return NO_MAPPING`. -/
def queryLayers : ℕ → Walk → Except Stop (Walk × Bool)
  | 0, w => .ok (w, true)
  | layers + 1, w => do
    let next_page_add ← load w.mem w.ptNode (currSymbol w.tempVpn)
    if next_page_add &&& 1#64 = 0#64 then
      return ({ w with accesses := w.accesses ++ [⟨w.ptNode, currSymbol w.tempVpn⟩] }, false)
    else
      queryLayers layers (w.descend w.mem next_page_add)

/-- `page_table_query`, with the accesses it made. -/
def pageTableQueryWalk (m : PhysMem) (pt vpn : Word) : Except Stop (Word × List Access) := do
  let (w, reached) ← queryLayers 4 (.start m pt vpn)
  if reached then
    let final_pte ← load w.mem w.ptNode (currSymbol w.tempVpn)
    let accesses := w.accesses ++ [⟨w.ptNode, currSymbol w.tempVpn⟩]
    if final_pte &&& 1#64 = 0#64 then return (NO_MAPPING, accesses)
    else return (final_pte >>> 12, accesses)
  else return (NO_MAPPING, w.accesses)

def pageTableQuery (m : PhysMem) (pt vpn : Word) : Except Stop Word :=
  (pageTableQueryWalk m pt vpn).map Prod.fst

end OsCourse.PageTable
