import HmmCoverage.Support.Python
import HmmCoverage.Coverage.Bitmap
import HmmCoverage.Coverage.Accumulate
import HmmCoverage.Coverage.Hmms
import HmmCoverage.Measures.Normalize
import HmmCoverage.Measures.Candidates
import HmmCoverage.Measures.Greedy
import HmmCoverage.Measures.Similarity
import HmmCoverage.Measures.Dtw
import HmmCoverage.Pipeline.LoadData
import HmmCoverage.Pipeline.Live
