import ElementFields.Quadrature.Orbit

/-! Symmetric rules on the tetrahedron with vertices (-1, -1, -1), (1, -1, -1), (-1, 1, -1) and
(-1, -1, 1), whose volume is four thirds, as tables of orbits. They stand for those of
`fenris-quadrature`, with the same strengths and numbers of points, and solve the same moment
equations. -/
namespace ElementFields

def tetrahedronOrbits : Nat → Option (List Orbit)
  | 0 | 1 => some [⟨1.3333333333333333, []⟩]
  | 2 => some [
    ⟨0.3333333333333333, [(0.1381966011250105, 3)]⟩]
  | 3 => some [
    ⟨0.1706600933206469, [(0.11416491382833975, 3)]⟩,
    ⟨0.16267324001268643, [(0.32909893565378323, 3)]⟩]
  | 4 => some [
    ⟨0.08950385052383494, [(0.08884677368286054, 3)]⟩,
    ⟨0.1278709451322647, [(0.30981831900240486, 3)]⟩,
    ⟨0.07730569178482247, [(0.4392700946253452, 2)]⟩]
  | 5 => some [
    ⟨0.15025056762402114, [(0.3108859192633006, 3)]⟩,
    ⟨0.09799072415514927, [(0.09273525031089122, 3)]⟩,
    ⟨0.05672802770277529, [(0.45449629587435036, 2)]⟩]
  | 6 => some [
    ⟨0.013436281407094191, [(0.04067395853461135, 3)]⟩,
    ⟨0.07380957539153964, [(0.3223378901422755, 3)]⟩,
    ⟨0.053230333677556654, [(0.21460287125915203, 3)]⟩,
    ⟨0.06428571428571428, [(0.06366100187501753, 2), (0.6030056647916492, 1)]⟩]
  | 7 => some [
    ⟨0.1273137192855078, []⟩,
    ⟨0.05643944161328937, [(0.3157011497782028, 3)]⟩,
    ⟨0.04252923711047677, [(0.05048982259839637, 2)]⟩,
    ⟨0.04960950763777949, [(0.18883383102600104, 2), (0.047160700360997884, 1)]⟩,
    ⟨0.010814361106537789, [(0.021265472541483248, 2), (0.8108302410985485, 1)]⟩]
  | 8 => some [
    ⟨0.05839491120048918, [(0.1887570452491756, 3)]⟩,
    ⟨0.043940520752579704, [(0.11916599023394099, 3)]⟩,
    ⟨0.012488488063931779, [(0.04593711326904642, 3)]⟩,
    ⟨0.059866331960883576, [(0.3134960429625007, 3)]⟩,
    ⟨0.04979426681278624, [(0.43370081575449226, 2)]⟩,
    ⟨0.009568223201164926, [(0.02116768634338279, 2), (0.7125345317119791, 1)]⟩,
    ⟨0.018415670510924985, [(0.20378761959793626, 2), (0.002884746885693141, 1)]⟩]
  | 9 => some [
    ⟨0.07660917627199798, []⟩,
    ⟨0.005364672478170182, [(0.056327922351538696, 3)]⟩,
    ⟨0.03987573358806848, [(0.3221687737424691, 3)]⟩,
    ⟨0.03183037672971112, [(0.16460426682170734, 3)]⟩,
    ⟨0.005892461823820655, [(0.037887495036649066, 3)]⟩,
    ⟨0.049929070961129716, [(0.11020446163703755, 2)]⟩,
    ⟨0.013542762686734926, [(0.03359886764980719, 2), (0.7184813831293849, 1)]⟩,
    ⟨0.02769626657777363, [(0.18329170318843296, 2), (0.03483263791702662, 1)]⟩,
    ⟨0.010869033470114387, [(0.45935793730507185, 2), (0.07955785093747053, 1)]⟩]
  | 10 => some [
    ⟨0.06319969807469432, []⟩,
    ⟨0.013158879622391177, [(0.11430965385734615, 3)]⟩,
    ⟨0.0359160799896916, [(0.3122500686951886, 3)]⟩,
    ⟨0.015191841626926975, [(0.4104307392189655, 2), (0.16548602561961104, 1)]⟩,
    ⟨0.013514495573007724, [(0.03277946821644267, 2), (0.3401847940871076, 1)]⟩,
    ⟨0.008768196369381205, [(0.03248528156482305, 2), (0.13385215221200952, 1)]⟩,
    ⟨0.01720938106514932, [(0.174979342183939, 2), (0.628071845475366, 1)]⟩,
    ⟨0.03431964264060809, [(0.12105018114558942, 2), (0.47719037990428037, 1)]⟩,
    ⟨0.0004825924591190048, [(0.006138008824790748, 2), (0.04473521500521364, 1)]⟩]
  | _ => none

end ElementFields
