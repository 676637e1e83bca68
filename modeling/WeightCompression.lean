import WeightCompression.Memory
import WeightCompression.Highway
import WeightCompression.Pool
import WeightCompression.Batches
import WeightCompression.Traits.F32
import WeightCompression.Traits.Bf16
import WeightCompression.Traits.Bf16Dot
import WeightCompression.Bulk
import WeightCompression.CompressedArray
import WeightCompression.CacheLoader
import WeightCompression.Compressor
import WeightCompression.App
import WeightCompression.CrossEntropy
