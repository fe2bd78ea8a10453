import ElementFields.Quadrature.Orbit

/-! Symmetric rules on the triangle with vertices (-1, -1), (1, -1) and (-1, 1), whose area is two, as
tables of orbits. They stand for those of `fenris-quadrature`, with the same strengths and numbers of
points, and solve the same moment equations. -/
namespace ElementFields

def triangleOrbits : Nat → Option (List Orbit)
  | 0 | 1 => some [⟨2.0, []⟩]
  | 2 => some [
    ⟨0.6666666666666666, [(0.16666666666666666, 2)]⟩]
  | 3 => some [
    ⟨0.33318510441444327, [(0.44633787874808184, 2)]⟩,
    ⟨0.33348156225222336, [(0.12651895591195017, 2)]⟩]
  | 4 => some [
    ⟨0.44676317935602294, [(0.4459484909159649, 2)]⟩,
    ⟨0.21990348731064374, [(0.09157621350977074, 2)]⟩]
  | 5 => some [
    ⟨0.45, []⟩,
    ⟨0.2647883055770124, [(0.4701420641051151, 2)]⟩,
    ⟨0.2518783610896543, [(0.10128650732345634, 2)]⟩]
  | 6 => some [
    ⟨0.34266624830596204, [(0.21942998254978296, 2)]⟩,
    ⟨0.16146217918606195, [(0.48013796411221504, 2)]⟩,
    ⟨0.08126911958732133, [(0.839009259714791, 1), (0.019371724361240787, 1)]⟩]
  | 7 => some [
    ⟨0.14573274070038597, [(0.40762352904194243, 2)]⟩,
    ⟨0.10113809048069967, [(0.06328551946872417, 2)]⟩,
    ⟨0.1642775132768949, [(0.21171742033756433, 2)]⟩,
    ⟨0.12775916110434304, [(0.03935441658056164, 1), (0.647772632724718, 1)]⟩]
  | 8 => some [
    ⟨0.28863121535557434, []⟩,
    ⟨0.19018326853456924, [(0.4592925882927232, 2)]⟩,
    ⟨0.2064347410694365, [(0.1705693077517602, 2)]⟩,
    ⟨0.06491699524639616, [(0.05054722831703098, 2)]⟩,
    ⟨0.054460628348869985, [(0.008394777409957605, 1), (0.7284923929554042, 1)]⟩]
  | 9 => some [
    ⟨0.19427159256559767, []⟩,
    ⟨0.1592954778544205, [(0.18820353561903272, 2)]⟩,
    ⟨0.06266940045427814, [(0.4896825191987376, 2)]⟩,
    ⟨0.05115535131739606, [(0.04472951339445271, 2)]⟩,
    ⟨0.15565508200954856, [(0.43708959149293664, 2)]⟩,
    ⟨0.08656707875457875, [(0.2219629891607657, 1), (0.036838412054736286, 1)]⟩]
  | 10 => some [
    ⟨0.15978900948247943, []⟩,
    ⟨0.14224760446475468, [(0.42508621060209056, 2)]⟩,
    ⟨0.01644763738092839, [(0.023308867510000192, 2)]⟩,
    ⟨0.07471971246861055, [(0.6113138261813976, 1), (0.029946031954170886, 1)]⟩,
    ⟨0.09086118459234004, [(0.223766973576973, 1), (0.14792562620953445, 1)]⟩,
    ⟨0.06177331376912798, [(0.14329537042686716, 1), (0.035632559587503485, 1)]⟩]
  | 11 => some [
    ⟨0.17461089047987127, []⟩,
    ⟨0.07642730751283258, [(0.09709707526671468, 2)]⟩,
    ⟨0.03632281290636044, [(0.49500695458611765, 2)]⟩,
    ⟨0.13746266178385785, [(0.4388068986198363, 2)]⟩,
    ⟨0.1432819919628322, [(0.20826690863035133, 2)]⟩,
    ⟨0.018679851054650098, [(0.026911263489242075, 2)]⟩,
    ⟨0.0815471331467535, [(0.6737092271465259, 1), (0.04522319699381298, 1)]⟩,
    ⟨0.016597072496334686, [(0.14391510097806187, 1), (0.8534054731467974, 1)]⟩]
  | 12 => some [
    ⟨0.1257164484357702, [(0.2712103850121159, 2)]⟩,
    ⟨0.08738508907607681, [(0.43972439229446025, 2)]⟩,
    ⟨0.05146213288091067, [(0.48821738977380486, 2)]⟩,
    ⟨0.06959222586141789, [(0.12757614554158592, 2)]⟩,
    ⟨0.012332522103118035, [(0.02131735045321037, 2)]⟩,
    ⟨0.08074311553276185, [(0.115343494534698, 1), (0.2757132696855142, 1)]⟩,
    ⟨0.04471354640460689, [(0.28132558098993954, 1), (0.022838332222257028, 1)]⟩,
    ⟨0.034632462217317785, [(0.02573405054833023, 1), (0.8580140335440727, 1)]⟩]
  | 13 => some [
    ⟨0.10358305735790348, []⟩,
    ⟨0.09425440999214699, [(0.4150122099949771, 2)]⟩,
    ⟨0.016090310324840512, [(0.024920255400580345, 2)]⟩,
    ⟨0.06162267953355612, [(0.11328322829635286, 2)]⟩,
    ⟨0.09135929015824783, [(0.2318534233108311, 2)]⟩,
    ⟨0.06652567656278238, [(0.4705480208688499, 2)]⟩,
    ⟨0.01797000240965466, [(0.49694941601802983, 2)]⟩,
    ⟨0.03671484524380809, [(0.019266781473791662, 1), (0.6885504107143465, 1)]⟩,
    ⟨0.07473638552112832, [(0.266045193759597, 1), (0.6352496568877508, 1)]⟩,
    ⟨0.03070707518479876, [(0.8511788862115793, 1), (0.02188339861107075, 1)]⟩]
  | 14 => some [
    ⟨0.04376716273885778, [(0.4889639103621786, 2)]⟩,
    ⟨0.0655767070882507, [(0.41764471934045394, 2)]⟩,
    ⟨0.08432517747398603, [(0.17720553241254344, 2)]⟩,
    ⟨0.028867399339553335, [(0.0617998830908726, 2)]⟩,
    ⟨0.10354820901458317, [(0.27347752830883865, 2)]⟩,
    ⟨0.009846807204800164, [(0.019390961248701048, 2)]⟩,
    ⟨0.02887261622706768, [(0.6869801678080878, 1), (0.01464695005565441, 1)]⟩,
    ⟨0.010020457677001344, [(0.11897449769695685, 1), (0.8797571713701712, 1)]⟩,
    ⟨0.07714302157412137, [(0.5702222908466832, 1), (0.09291624935697182, 1)]⟩,
    ⟨0.04933150642512735, [(0.05712475740364794, 1), (0.7706085547749965, 1)]⟩]
  | 15 => some [
    ⟨0.09588415398607354, []⟩,
    ⟨0.03780755042757815, [(0.08304427442515397, 2)]⟩,
    ⟨0.06712349175976864, [(0.2156088858298799, 2)]⟩,
    ⟨0.008868426552951645, [(0.01862771100405198, 2)]⟩,
    ⟨0.02595868086810974, [(0.49233921356569943, 2)]⟩,
    ⟨0.06399674860547751, [(0.3442129999145395, 1), (0.4690667089501684, 1)]⟩,
    ⟨0.01469745751425616, [(0.09206886568364119, 1), (0.014650312758291987, 1)]⟩,
    ⟨0.05952076194584981, [(0.09543211371918066, 1), (0.6978447875423676, 1)]⟩,
    ⟨0.06175423792196954, [(0.0792342892452848, 1), (0.5500965418364275, 1)]⟩,
    ⟨0.024109651399952758, [(0.019895262758700787, 1), (0.20051794916764934, 1)]⟩,
    ⟨0.023394708810611224, [(0.015509949445914894, 1), (0.33271511498784245, 1)]⟩]
  | 16 => some [
    ⟨0.09232483156172204, []⟩,
    ⟨0.007245858225619071, [(0.0165565185766699, 2)]⟩,
    ⟨0.020319985430659885, [(0.49271720476232095, 2)]⟩,
    ⟨0.062363364156835924, [(0.45970650991364753, 2)]⟩,
    ⟨0.021828833322826494, [(0.061332447088397114, 2)]⟩,
    ⟨0.045039028628401374, [(0.19785481368291463, 2)]⟩,
    ⟨0.039289937265703116, [(0.14719646638964567, 2)]⟩,
    ⟨0.024250508916938363, [(0.35436435224611434, 1), (0.01698921881940923, 1)]⟩,
    ⟨0.032972868839746594, [(0.059414385655251374, 1), (0.15673282475838418, 1)]⟩,
    ⟨0.056475778261054765, [(0.08194117259545544, 1), (0.28955276021391246, 1)]⟩,
    ⟨0.010951180485059438, [(0.8991586475942536, 1), (0.009557082291248272, 1)]⟩,
    ⟨0.017762333418391223, [(0.012662731184263408, 1), (0.7712015903743347, 1)]⟩,
    ⟨0.07748968797016635, [(0.1902477690512854, 1), (0.32731491371162813, 1)]⟩]
  | 17 => some [
    ⟨0.024918001604610884, [(0.06665406347959693, 2)]⟩,
    ⟨0.05003890190099471, [(0.4655978716188903, 2)]⟩,
    ⟨0.07543247430559057, [(0.28570650243658663, 2)]⟩,
    ⟨0.05262526117603597, [(0.18035811626637063, 2)]⟩,
    ⟨0.05462185305620421, [(0.4171034443615992, 2)]⟩,
    ⟨0.005547775155275284, [(0.014755491660753954, 2)]⟩,
    ⟨0.017384429002002384, [(0.2717918700553548, 1), (0.7150722591106424, 1)]⟩,
    ⟨0.015956600411859187, [(0.0160176423621193, 1), (0.824790070165088, 1)]⟩,
    ⟨0.009168696803471734, [(0.011575175903180615, 1), (0.07250547079900242, 1)]⟩,
    ⟨0.04111579664090904, [(0.16872251349525946, 1), (0.07804234056828242, 1)]⟩,
    ⟨0.05234325187067398, [(0.29921894247697034, 1), (0.5432755795961598, 1)]⟩,
    ⟨0.044975545093382134, [(0.3062815917461865, 1), (0.0673493778673612, 1)]⟩,
    ⟨0.020796879911679073, [(0.5712948679446841, 1), (0.41547545929522905, 1)]⟩]
  | 18 => some [
    ⟨0.06149704247823171, []⟩,
    ⟨0.06694398811969579, [(0.4110671018759195, 2)]⟩,
    ⟨0.06223279320401226, [(0.2656146099053742, 2)]⟩,
    ⟨0.04063667769091679, [(0.15163850697260486, 2)]⟩,
    ⟨0.027580573209533877, [(0.07243870556733287, 2)]⟩,
    ⟨0.001064011233895561, [(0.003758944341068346, 2)]⟩,
    ⟨0.026214054983477512, [(0.4749182113240457, 2)]⟩,
    ⟨0.015459670560012455, [(0.7329888214065166, 1), (0.010505018819241936, 1)]⟩,
    ⟨0.05518577297715896, [(0.14906691012577383, 1), (0.26857330639601384, 1)]⟩,
    ⟨0.03382330783496016, [(0.06612245802840339, 1), (0.7553984164057089, 1)]⟩,
    ⟨0.01917224894872301, [(0.41106566867461836, 1), (0.011691824674667086, 1)]⟩,
    ⟨0.03273181682797313, [(0.3020619577128708, 1), (0.6439263069481049, 1)]⟩,
    ⟨0.008435033549488886, [(0.9402249256838527, 1), (0.01249893248349544, 1)]⟩,
    ⟨0.03065651638910628, [(0.5245289252324957, 1), (0.09042704035434061, 1)]⟩,
    ⟨0.015283409945439272, [(0.014331524778941954, 1), (0.8528896449496687, 1)]⟩]
  | 19 => some [
    ⟨0.06540473725082999, []⟩,
    ⟨0.06023733487313062, [(0.40129591938242065, 2)]⟩,
    ⟨0.02088571040856591, [(0.4891112249003259, 2)]⟩,
    ⟨0.04477397038204207, [(0.4543997093895002, 2)]⟩,
    ⟨0.060677353228411675, [(0.2558598268133697, 2)]⟩,
    ⟨0.01621606414610104, [(0.05606955567108396, 2)]⟩,
    ⟨0.03236789684781616, [(0.10979752881563022, 2)]⟩,
    ⟨0.04826151555711514, [(0.1775278816253282, 2)]⟩,
    ⟨0.004103060042488953, [(0.012537129048772676, 2)]⟩,
    ⟨0.051036731294556284, [(0.30804710014271924, 1), (0.5570832921109728, 1)]⟩,
    ⟨0.0365597436622276, [(0.07556472323001483, 1), (0.22289816729661854, 1)]⟩,
    ⟨0.007701130360812371, [(0.010410619545309812, 1), (0.06498861881720235, 1)]⟩,
    ⟨0.017821469529436865, [(0.2645207161832427, 1), (0.7211625068797687, 1)]⟩,
    ⟨0.004299443711525506, [(0.001477756856684211, 1), (0.15710625973890507, 1)]⟩,
    ⟨0.00813349678464022, [(0.39783135035956046, 1), (0.5982333145628577, 1)]⟩,
    ⟨0.0323073899239415, [(0.5957610025727462, 1), (0.35676596330745386, 1)]⟩,
    ⟨0.02081168578155221, [(0.14343814328248267, 1), (0.8233043193176812, 1)]⟩]
  | 20 => some [
    ⟨0.055640442805812464, []⟩,
    ⟨0.03669385189701166, [(0.18629499774454095, 2)]⟩,
    ⟨0.00864510164266231, [(0.037310880598884696, 2)]⟩,
    ⟨0.055152202516281834, [(0.39342534781709987, 2)]⟩,
    ⟨0.0031953631642664794, [(0.010976141028397763, 2)]⟩,
    ⟨0.028407301213633763, [(0.476245611540499, 2)]⟩,
    ⟨0.03780959973292979, [(0.44555105695592484, 2)]⟩,
    ⟨0.03132092310429813, [(0.1093835967117146, 2)]⟩,
    ⟨0.05633280523008099, [(0.2545792676733391, 2)]⟩,
    ⟨0.03089043128839692, [(0.10622720472027004, 1), (0.6781657378896355, 1)]⟩,
    ⟨0.02394559431581876, [(0.19851813222878817, 1), (0.7549215028635475, 1)]⟩,
    ⟨0.04676698292731095, [(0.1398080719917999, 1), (0.317860123835772, 1)]⟩,
    ⟨0.00881158967423399, [(0.8332955118382362, 1), (0.0075707805046965285, 1)]⟩,
    ⟨0.004519478408503462, [(0.0048549376076237535, 1), (0.9310544767839422, 1)]⟩,
    ⟨0.014782726001021191, [(0.5701446928909734, 1), (0.42002375881622406, 1)]⟩,
    ⟨0.01658284611045543, [(0.03836368477537459, 1), (0.8616840189364867, 1)]⟩,
    ⟨0.01431280095383074, [(0.010737212856011088, 1), (0.7086813757203236, 1)]⟩,
    ⟨0.03466890226887733, [(0.6118777035474257, 1), (0.3331348173095875, 1)]⟩]
  | _ => none

end ElementFields
